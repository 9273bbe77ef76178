import MlirAie.Lib.Walk

/-!
# Strided arrays

An array of several dimensions, outermost first, steps through memory by one stride a dimension.

* **`offsets_eq_run`**: row-major arrays are visited one element after the other;
* **`canonical_unique`**: without unit dimensions, and none that continues the next, the places
  determine the dimensions;
* **`perm_run_iff`**: dimensions visit each of a range of places once exactly if, by their strides,
  each starts where the one before ends.
-/

namespace MlirAie.Lib

variable {R : Type*} [CommRing R]

/-- The places of the elements of an array, outermost dimension first. -/
def offsets : List ℕ → List R → List R
  | n :: ns, t :: ts => nest (offsets ns ts) (run 0 t n)
  | _, _ => [0]

theorem offsets_cons (n : ℕ) (ns : List ℕ) (t : R) (ts : List R) :
    offsets (n :: ns) (t :: ts) = nest (offsets ns ts) (run 0 t n) := rfl

theorem offsets_one_cons (ns : List ℕ) (t : R) (ts : List R) :
    offsets (1 :: ns) (t :: ts) = offsets ns ts := by
  rw [offsets_cons, run_one, nest_zero]

/-- Each stride that is stepped is the number of elements inside its dimension. -/
def RowMajor : List ℕ → List R → Prop
  | n :: ns, t :: ts => (1 < n → t = (ns.prod : ℕ)) ∧ (n ≠ 0 → RowMajor ns ts)
  | [], [] => True
  | _, _ => False

/-- **Row-major arrays are visited one element after the other.** -/
theorem offsets_eq_run {ns : List ℕ} {ts : List R} (h : RowMajor ns ts) :
    offsets ns ts = run 0 1 ns.prod := by
  induction ns generalizing ts with
  | nil => simp [offsets]
  | cons n ns ih =>
    cases ts with
    | nil => exact h.elim
    | cons t ts =>
      rw [offsets_cons, List.prod_cons, mul_comm]
      rcases Nat.lt_trichotomy n 1 with hn | rfl | hn
      · rw [Nat.lt_one_iff.1 hn, run_zero, mul_zero, run_zero, nest_nil]
      · rw [ih (h.2 one_ne_zero), run_one, nest_zero, mul_one]
      · rw [ih (h.2 (by omega)), h.1 hn, ← mul_one ((ns.prod : ℕ) : R), nest_run_run, add_zero]

/-! ## Elements by their number -/

/-- The place of the `k`-th element; the dimensions are innermost first. -/
def place : List (ℕ × R) → ℕ → R
  | [], _ => 0
  | (n, t) :: ds, k => (k % n : ℕ) * t + place ds (k / n)

/-- How many elements the dimensions have. -/
def extent (ds : List (ℕ × R)) : ℕ := (ds.map Prod.fst).prod

omit [CommRing R] in
theorem extent_cons (n : ℕ) (t : R) (ds : List (ℕ × R)) :
    extent ((n, t) :: ds) = n * extent ds := rfl

omit [CommRing R] in
theorem extent_reverse (ds : List (ℕ × R)) : extent ds.reverse = extent ds := by
  rw [extent, List.map_reverse, List.prod_reverse, extent]

@[simp] theorem place_zero (ds : List (ℕ × R)) : place ds 0 = 0 := by
  induction ds with
  | nil => rfl
  | cons d ds ih => rw [place, Nat.zero_mod, Nat.zero_div, ih, Nat.cast_zero, zero_mul, add_zero]

/-- The elements with index zero in the innermost dimension. -/
theorem place_mul {n : ℕ} (hn : 0 < n) (t : R) (ds : List (ℕ × R)) (k : ℕ) :
    place ((n, t) :: ds) (k * n) = place ds k := by
  rw [place, Nat.mul_mod_left, Nat.mul_div_cancel _ hn, Nat.cast_zero, zero_mul, zero_add]

theorem place_of_lt {n k : ℕ} (hk : k < n) (t : R) (ds : List (ℕ × R)) :
    place ((n, t) :: ds) k = k * t := by
  rw [place, Nat.mod_eq_of_lt hk, Nat.div_eq_of_lt hk, place_zero, add_zero]

theorem range_mul_map {α : Type*} (f : ℕ → α) (n m : ℕ) :
    (List.range (n * m)).map f =
      (List.range m).flatMap fun q => (List.range n).map fun r => f (q * n + r) := by
  induction m with
  | zero => simp
  | succ m ih =>
    rw [Nat.mul_succ, List.range_add, List.map_append, ih, List.range_succ, List.flatMap_append,
      List.flatMap_singleton, List.map_map, Nat.mul_comm n m]
    rfl

theorem offsets_append {ns : List ℕ} {ts : List R} (h : ns.length = ts.length) (ms : List ℕ)
    (us : List R) : offsets (ns ++ ms) (ts ++ us) = nest (offsets ms us) (offsets ns ts) := by
  induction ns generalizing ts with
  | nil =>
    obtain rfl := List.eq_nil_of_length_eq_zero h.symm
    exact (nest_zero _).symm
  | cons n ns ih =>
    cases ts with
    | nil => cases h
    | cons t ts =>
      rw [List.cons_append, List.cons_append, offsets_cons, ih (Nat.succ.inj h), offsets_cons,
        nest_assoc]

theorem offsets_replace {ns ms ms' : List ℕ} {ts us us' : List R} (hns : ns.length = ts.length)
    (hms : ms.length = us.length) (hms' : ms'.length = us'.length)
    (h : offsets ms us = offsets ms' us') (ns' : List ℕ) (ts' : List R) :
    offsets (ns ++ (ms ++ ns')) (ts ++ (us ++ ts')) =
      offsets (ns ++ (ms' ++ ns')) (ts ++ (us' ++ ts')) := by
  rw [offsets_append hns, offsets_append hns, offsets_append hms, offsets_append hms', h]

theorem offsets_singleton (n : ℕ) (t : R) : offsets [n] [t] = run 0 t n := zero_nest _

/-- A dimension that continues the next one is one with it. -/
theorem offsets_pair (m n : ℕ) (t : R) : offsets [m, n] [n * t, t] = offsets [m * n] [t] := by
  rw [offsets_cons, offsets_singleton, offsets_singleton, nest_run_run, add_zero, Nat.mul_comm]

/-- **The offsets, by the number of the element.** -/
theorem offsets_eq_place (ds : List (ℕ × R)) :
    offsets (ds.map Prod.fst) (ds.map Prod.snd) =
      (List.range (extent ds)).map (place ds.reverse) := by
  induction ds using List.reverseRecOn with
  | nil => rfl
  | append_singleton ds d ih =>
    obtain ⟨n, t⟩ := d
    rw [List.map_append, List.map_append, offsets_append (by simp), ih, List.map_singleton,
      List.map_singleton, offsets_singleton, List.reverse_concat, ← extent_reverse (ds ++ [(n, t)]),
      List.reverse_concat, extent_cons, extent_reverse, range_mul_map, nest, List.flatMap_map]
    congr 1
    funext q
    rw [run, List.map_map]
    refine List.map_congr_left fun r hr => ?_
    have hr := List.mem_range.1 hr
    rw [Function.comp_apply, place, Nat.mul_add_mod_of_lt hr, Nat.add_comm,
      Nat.add_mul_div_right _ _ (by omega), Nat.div_eq_of_lt hr, Nat.zero_add, zero_add, add_comm]

/-- The offsets of dimensions, outermost first. -/
def visits (ds : List (ℕ × R)) : List R := offsets (ds.map Prod.fst) (ds.map Prod.snd)

theorem visits_cons (d : ℕ × R) (ds : List (ℕ × R)) :
    visits (d :: ds) = nest (visits ds) (run 0 d.2 d.1) := rfl

theorem visits_filter_unit (ds : List (ℕ × R)) :
    visits (ds.filter fun d => d.1 ≠ 1) = visits ds := by
  induction ds with
  | nil => rfl
  | cons d ds ih =>
    obtain ⟨n, t⟩ := d
    by_cases h : n = 1
    · rw [List.filter_cons_of_neg (by simpa using h), ih, h, visits_cons, run_one, nest_zero]
    · rw [List.filter_cons_of_pos (by simpa using h), visits_cons, ih, visits_cons]

theorem length_visits (ds : List (ℕ × R)) : (visits ds).length = extent ds := by
  rw [visits, offsets_eq_place, List.length_map, List.length_range]

/-- Places in other terms. -/
theorem visits_map {S : Type*} [CommRing S] (f : R →+* S) (ds : List (ℕ × R)) :
    visits (ds.map fun d => (d.1, f d.2)) = (visits ds).map f := by
  induction ds with
  | nil => simp [visits, offsets]
  | cons d ds ih =>
    rw [List.map_cons, visits_cons, ih, visits_cons, nest, nest, run, run, List.map_flatMap,
      List.flatMap_map, List.flatMap_map]
    congr 1
    funext i
    simp [Function.comp_def]

/-! ## Dimensions in another order -/

theorem nest_comm (l m : List R) : (nest l m).Perm (nest m l) := by
  induction m with
  | nil => simp [nest]
  | cons b m ih =>
    rw [nest_cons]
    refine (List.Perm.append_left _ ih).trans ?_
    clear ih
    induction l with
    | nil => rfl
    | cons a l ih =>
      rw [nest_cons, nest_cons, List.map_cons, List.map_cons, List.cons_append, List.cons_append,
        add_comm]
      refine List.Perm.cons _ (List.Perm.trans ?_ (List.Perm.append_left _ ih))
      rw [← List.append_assoc, ← List.append_assoc]
      exact List.Perm.append_right _ List.perm_append_comm

theorem nest_perm {l l' m : List R} (h : l.Perm l') : (nest l m).Perm (nest l' m) :=
  List.Perm.flatMap_left _ fun _ _ => h.map _

/-- **Dimensions in another order** have the same places in another order. -/
theorem visits_perm {ds es : List (ℕ × R)} (h : ds.Perm es) : (visits ds).Perm (visits es) := by
  induction h with
  | nil => exact .refl _
  | cons d _ ih =>
    rw [visits_cons, visits_cons]
    exact nest_perm ih
  | swap d e ds =>
    rw [visits_cons, visits_cons, visits_cons, visits_cons, nest_assoc, nest_assoc]
    exact (nest_comm _ _).trans ((nest_perm (nest_comm _ _)).trans (nest_comm _ _))
  | trans _ _ ih ih' => exact ih.trans ih'

/-! ## Canonical dimensions -/

/-- No dimension is a unit, and none continues the next one inside; innermost first. -/
def Canonical (ds : List (ℕ × R)) : Prop :=
  (∀ d ∈ ds, 2 ≤ d.1) ∧ ds.IsChain fun inner outer => outer.2 ≠ ((inner.1 : ℕ) : R) * inner.2

theorem Canonical.tail {d : ℕ × R} {ds : List (ℕ × R)} (h : Canonical (d :: ds)) :
    Canonical ds := ⟨(List.forall_mem_cons.1 h.1).2, h.2.tail⟩

theorem Canonical.extent_pos {ds : List (ℕ × R)} (h : Canonical ds) : 0 < extent ds :=
  List.prod_pos fun n hn => by
    obtain ⟨d, hd, rfl⟩ := List.mem_map.1 hn
    exact Nat.lt_of_lt_of_le Nat.two_pos (h.1 d hd)

theorem Canonical.not_lt {n m : ℕ} {t : R} {ds es : List (ℕ × R)}
    (hd : Canonical ((n, t) :: ds)) (he : Canonical ((m, t) :: es))
    (hextent : extent ((n, t) :: ds) = extent ((m, t) :: es))
    (h : ∀ k < extent ((n, t) :: ds), place ((n, t) :: ds) k = place ((m, t) :: es) k) :
    ¬n < m := by
  intro hlt
  have hn : 2 ≤ n := hd.1 _ List.mem_cons_self
  rw [extent_cons, extent_cons] at hextent
  have hpos := he.tail.extent_pos
  cases ds with
  | nil =>
    have : m ≤ m * extent es := Nat.le_mul_of_pos_right _ hpos
    rw [← hextent] at this
    simp only [extent, List.map_nil, List.prod_nil, mul_one] at this
    omega
  | cons d ds =>
    obtain ⟨n', t'⟩ := d
    have hn' : 2 ≤ n' := hd.tail.1 _ List.mem_cons_self
    have hpos' := hd.tail.tail.extent_pos
    have hextent' : n < extent ((n, t) :: (n', t') :: ds) := by
      rw [extent_cons, extent_cons]
      nlinarith [Nat.mul_le_mul hn' hpos']
    have hplace := h n hextent'
    have hstart := place_mul (by omega : 0 < n) t ((n', t') :: ds) 1
    have hnext : place ((n', t') :: ds) 1 = t' := by
      rw [place_of_lt (by omega), Nat.cast_one, one_mul]
    rw [Nat.one_mul, hnext] at hstart
    rw [hstart, place_of_lt hlt] at hplace
    exact (List.isChain_cons_cons.1 hd.2).1 hplace

/-- **The places determine the dimensions.** -/
theorem canonical_unique {ds es : List (ℕ × R)} (hd : Canonical ds) (he : Canonical es)
    (hextent : extent ds = extent es) (h : ∀ k < extent ds, place ds k = place es k) : ds = es := by
  have hunit {ds : List (ℕ × R)} (hd : Canonical ds) (hextent : extent ds = 1) : ds = [] := by
    cases ds with
    | nil => rfl
    | cons d ds =>
      have hn := hd.1 d List.mem_cons_self
      rw [extent_cons] at hextent
      have := Nat.eq_one_of_mul_eq_one_right hextent
      omega
  induction ds generalizing es with
  | nil => exact (hunit he hextent.symm).symm
  | cons d ds ih =>
    obtain ⟨n, t⟩ := d
    cases es with
    | nil => exact hunit hd hextent
    | cons e es =>
      obtain ⟨m, u⟩ := e
      have hn : 2 ≤ n := hd.1 _ List.mem_cons_self
      have hm : 2 ≤ m := he.1 _ List.mem_cons_self
      have hpos := hd.tail.extent_pos
      have hlt {k : ℕ} (hk : k < extent ds) : k * n < extent ((n, t) :: ds) := by
        rw [extent_cons, Nat.mul_comm n]
        exact Nat.mul_lt_mul_of_pos_right hk (by omega)
      have hone : 1 < extent ((n, t) :: ds) := by
        rw [extent_cons]
        nlinarith [Nat.mul_le_mul hn hpos]
      obtain rfl : t = u := by
        have := h 1 hone
        rwa [place_of_lt (by omega), place_of_lt (by omega), Nat.cast_one, one_mul, one_mul] at this
      obtain rfl : n = m := by
        have h₁ := hd.not_lt he hextent h
        have h₂ := he.not_lt hd hextent.symm fun k hk => (h k (hextent ▸ hk)).symm
        omega
      rw [ih hd.tail he.tail (Nat.eq_of_mul_eq_mul_left (by omega) hextent) fun k hk => ?_]
      have := h (k * n) (hlt hk)
      rwa [place_mul (by omega), place_mul (by omega)] at this

/-! ## Dimensions that cover a range -/

/-- Each stride is how far the dimensions before reach; from the smallest stride on. -/
def Continues : ℤ → List (ℕ × ℤ) → Prop
  | _, [] => True
  | c, (n, t) :: ds => t = c ∧ Continues (c * n) ds

theorem mem_run {c v : ℤ} {n : ℕ} : v ∈ run 0 c n ↔ ∃ i < n, (i : ℤ) * c = v := by
  simp [run]

theorem nodup_run {c : ℤ} (hc : 0 < c) (n : ℕ) : (run 0 c n).Nodup := by
  refine List.Nodup.map_on (fun i _ j _ h => ?_) List.nodup_range
  simp only [zero_add] at h
  exact_mod_cast mul_right_cancel₀ hc.ne' h

theorem length_run (c : ℤ) (n : ℕ) : (run 0 c n).length = n := by
  rw [run, List.length_map, List.length_range]

theorem mem_nest {l m : List R} {v : R} : v ∈ nest l m ↔ ∃ b ∈ m, ∃ a ∈ l, b + a = v := by
  simp [nest]

theorem length_nest (l m : List R) : (nest l m).length = m.length * l.length := by
  induction m with
  | nil => simp
  | cons b m ih =>
    rw [nest_cons, List.length_append, List.length_map, ih, List.length_cons, Nat.succ_mul,
      Nat.add_comm]

theorem not_mem_of_nodup_nest {l : List ℤ} {c : ℤ} {n : ℕ} (h : (nest l (run 0 c n)).Nodup) {i : ℕ}
    (hi : 0 < i) (hin : i < n) {b : ℤ} (hb : b ∈ l) : i * c + b ∉ l := by
  obtain ⟨n, rfl⟩ := Nat.exists_eq_succ_of_ne_zero (by omega : n ≠ 0)
  rw [Nat.succ_eq_add_one, Nat.add_comm, run_add, run_one, nest_append, nest_singleton] at h
  have hdisjoint := (List.nodup_append.1 h).2.2
  intro hmem
  refine hdisjoint (i * c + b) (List.mem_map.2 ⟨_, hmem, zero_add _⟩) (i * c + b) ?_ rfl
  refine mem_nest.2 ⟨i * c, List.mem_map.2 ⟨i - 1, List.mem_range.2 (by omega), ?_⟩, b, hb, rfl⟩
  simp only [Nat.cast_pred hi, Nat.cast_one]
  ring

/-- **A tiling of a range** by copies of its first `n` places: they start at the multiples. -/
theorem perm_run_of_nest {l : List ℤ} {c : ℤ} {n m : ℕ} (hc : 0 < c) (hn : 0 < n)
    (h : (nest l (run 0 c n)).Perm (run 0 c m)) : l.Perm (run 0 (c * n) l.length) := by
  have hlength : n * l.length = m := by
    have := h.length_eq
    rwa [length_nest, length_run, length_run] at this
  have hnodup := h.nodup_iff.2 (nodup_run hc m)
  have hstart : l.Sublist (nest l (run 0 c n)) := by
    obtain ⟨n, rfl⟩ := Nat.exists_eq_succ_of_ne_zero hn.ne'
    rw [Nat.succ_eq_add_one, Nat.add_comm, run_add, run_one, nest_append, nest_singleton]
    simp
  have hmul : ∀ q < l.length, (q : ℤ) * (c * n) ∈ l := by
    intro q
    induction q using Nat.strongRecOn with
    | ind q ih =>
      intro hq
      have hlt : q * n < m := by
        rw [← hlength, Nat.mul_comm]
        exact Nat.mul_lt_mul_of_pos_left hq hn
      obtain ⟨x, hx, b, hb, hsum⟩ := mem_nest.1 (h.mem_iff.2 (mem_run.2 ⟨q * n, hlt, rfl⟩))
      obtain ⟨i, hi, rfl⟩ := mem_run.1 hx
      obtain ⟨k, -, rfl⟩ := mem_run.1 (h.mem_iff.1 (hstart.subset hb))
      have hik : i + k = q * n := by
        have : ((i : ℤ) + k) * c = ((q * n : ℕ) : ℤ) * c := by rw [← hsum]; ring
        exact_mod_cast mul_right_cancel₀ hc.ne' this
      rcases Nat.eq_zero_or_pos i with rfl | hpos
      · rw [show (q : ℤ) * (c * n) = k * c by rw [show k = q * n by omega]; push_cast; ring]
        exact hb
      · -- the copy before reaches the place already
        obtain ⟨q, rfl⟩ := Nat.exists_eq_succ_of_ne_zero (by rintro rfl; omega : q ≠ 0)
        refine absurd hb ?_
        have hbefore := not_mem_of_nodup_nest hnodup (by omega : 0 < n - i) (by omega)
          (ih q (Nat.lt_succ_self q) (by omega))
        convert hbefore using 1
        rw [show k = (q * n) + (n - i) by rw [Nat.succ_mul] at hik; omega]
        push_cast
        ring_nf
  have hsubset : run 0 (c * n) l.length ⊆ l := by
    intro v hv
    obtain ⟨q, hq, rfl⟩ := mem_run.1 hv
    exact hmul q hq
  have hsub := List.subperm_of_subset (nodup_run (by positivity) l.length) hsubset
  exact (hsub.perm_of_length_le (length_run _ _).ge).symm

theorem eq_zero_or_le_of_mem_visits {ds : List (ℕ × ℤ)} {t : ℤ} (ht : 0 ≤ t)
    (h : ∀ d ∈ ds, t ≤ d.2) {v : ℤ} (hv : v ∈ visits ds) : v = 0 ∨ t ≤ v := by
  induction ds generalizing v with
  | nil => exact .inl (List.mem_singleton.1 hv)
  | cons d ds ih =>
    rw [List.forall_mem_cons] at h
    obtain ⟨x, hx, b, hb, rfl⟩ := mem_nest.1 hv
    obtain ⟨i, -, rfl⟩ := mem_run.1 hx
    have hb := ih h.2 hb
    rcases Nat.eq_zero_or_pos i with rfl | hi
    · simpa using hb
    · right
      have : d.2 ≤ i * d.2 := le_mul_of_one_le_left (ht.trans h.1) (by exact_mod_cast hi)
      rcases hb with rfl | hb
      · linarith [h.1]
      · linarith [h.1]

theorem zero_mem_visits {ds : List (ℕ × ℤ)} (h : ∀ d ∈ ds, 0 < d.1) : (0 : ℤ) ∈ visits ds := by
  induction ds with
  | nil => exact List.mem_singleton_self 0
  | cons d ds ih =>
    rw [List.forall_mem_cons] at h
    exact mem_nest.2 ⟨0, mem_run.2 ⟨0, h.1, by simp⟩, 0, ih h.2, add_zero 0⟩

theorem extent_pos {ds : List (ℕ × ℤ)} (h : ∀ d ∈ ds, 0 < d.1) : 0 < extent ds :=
  List.prod_pos fun n hn => by
    obtain ⟨d, hd, rfl⟩ := List.mem_map.1 hn
    exact h d hd

/-- **Dimensions by their strides** visit each place of a range once exactly if each starts where
the one before ends. -/
theorem perm_run_iff {ds : List (ℕ × ℤ)} {c : ℤ} (hc : 0 < c) (hsize : ∀ d ∈ ds, 2 ≤ d.1)
    (hstride : ∀ d ∈ ds, 0 ≤ d.2) (hsorted : ds.Pairwise fun d e => d.2 ≤ e.2) :
    (visits ds).Perm (run 0 c (extent ds)) ↔ Continues c ds := by
  induction ds generalizing c with
  | nil => exact iff_of_true (by simp [visits, offsets, extent]) trivial
  | cons d ds ih =>
    obtain ⟨n, t⟩ := d
    rw [List.forall_mem_cons] at hsize hstride
    rw [List.pairwise_cons] at hsorted
    obtain ⟨hn, hsize⟩ := hsize
    have hpos := extent_pos fun d hd => (Nat.zero_lt_two.trans_le (hsize d hd) : 0 < d.1)
    rw [visits_cons, extent_cons, Continues]
    constructor
    · intro h
      have hzero := zero_mem_visits fun d hd => (Nat.zero_lt_two.trans_le (hsize d hd) : 0 < d.1)
      have hnodup := h.nodup_iff.2 (nodup_run hc _)
      have ht : t = c := by
        refine le_antisymm ?_ ?_
        · have hmem : c ∈ run 0 c (n * extent ds) :=
            mem_run.2 ⟨1, by nlinarith [Nat.mul_le_mul hn hpos], by simp⟩
          have hvisit : c ∈ visits ((n, t) :: ds) := h.mem_iff.2 hmem
          refine (eq_zero_or_le_of_mem_visits hstride.1 ?_ hvisit).resolve_left hc.ne'
          exact List.forall_mem_cons.2 ⟨le_rfl, hsorted.1⟩
        · have hmem : t ∈ nest (visits ds) (run 0 t n) :=
            mem_nest.2 ⟨t, mem_run.2 ⟨1, hn, by simp⟩, 0, hzero, add_zero t⟩
          obtain ⟨m, -, hm⟩ := mem_run.1 (h.mem_iff.1 hmem)
          have hne : t ≠ 0 := by
            have := not_mem_of_nodup_nest hnodup one_pos hn hzero
            rintro rfl
            exact this (by simpa using hzero)
          have hm1 : 1 ≤ m := Nat.one_le_iff_ne_zero.2 fun h0 => hne (by rw [← hm, h0]; simp)
          rw [← hm]
          exact le_mul_of_one_le_left hc.le (by exact_mod_cast hm1)
      subst ht
      refine ⟨rfl, (ih (by positivity) hsize hstride.2 hsorted.2).1 ?_⟩
      have hrest := perm_run_of_nest hc (by omega) h
      rwa [length_visits] at hrest
    · rintro ⟨rfl, h⟩
      have hrest := (ih (by positivity) hsize hstride.2 hsorted.2).2 h
      refine (nest_perm hrest).trans ((nest_comm _ _).trans ?_)
      rw [mul_comm t, nest_run_run, add_zero]

theorem visits_concat (ds : List (ℕ × R)) (d : ℕ × R) :
    visits (ds ++ [d]) = nest (run 0 d.2 d.1) (visits ds) := by
  rw [visits, List.map_append, List.map_append, offsets_append (by simp), List.map_singleton,
    List.map_singleton, offsets_singleton, visits]

theorem Continues.visits_reverse {c : ℤ} {ds : List (ℕ × ℤ)} (h : Continues c ds) :
    visits ds.reverse = run 0 c (extent ds) := by
  induction ds generalizing c with
  | nil => simp [visits, offsets, extent]
  | cons d ds ih =>
    obtain ⟨n, t⟩ := d
    obtain ⟨rfl, h⟩ := h
    rw [List.reverse_cons, visits_concat, ih h, mul_comm t, nest_run_run, add_zero, extent_cons]

end MlirAie.Lib
