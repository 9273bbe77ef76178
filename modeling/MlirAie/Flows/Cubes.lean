import MlirAie.Flows.Connectivity

/-!
# Ids as disjoint cubes

A set of packet ids is described by claims, the largest first, each inside the ids not described
yet.

* `disjointCubes`: the cubes of a set of ids;
* **`disjointCubes_claims`**: an id of the set lies in one of the cubes, and no other id does;
* `pairwise_disjointCubes`: no id lies in two.
-/

namespace MlirAie.Flows

/-- The bits set of a 32-bit number. -/
def popcount (n : ℕ) : ℕ := ((List.range 32).filter n.testBit).length

/-- Every id a cube claims is left. -/
def inside (idMask : ℕ) (left : List ℕ) (cube : MaskValue) : Bool :=
  (List.range (idMask + 1)).all fun id =>
    decide (id < cube.value) || !decide (cube.Claims id) || left.contains id

/-- A larger cube with the mask, if `value` gives one. -/
def tryValue (idMask : ℕ) (left : List ℕ) (mask size : ℕ) (best : MaskValue × ℕ) (value : ℕ) :
    MaskValue × ℕ :=
  if size > best.2 ∧ value &&& mask = value ∧ inside idMask left ⟨mask, value⟩ then
    (⟨mask, value⟩, size)
  else best

/-- A larger cube, if the mask gives one. -/
def tryMask (idMask : ℕ) (left : List ℕ) (best : MaskValue × ℕ) (mask : ℕ) : MaskValue × ℕ :=
  let size := 1 <<< popcount (idMask ^^^ (idMask &&& mask))
  if size ≤ best.2 then best
  else (List.range (idMask + 1)).foldl (tryValue idMask left mask size) best

/-- The largest cube inside the ids left, from that of the first of them alone. -/
def bestCube (idMask : ℕ) (left : List ℕ) (first : ℕ) : MaskValue :=
  ((List.range (idMask + 1)).foldl (tryMask idMask left) (⟨idMask, first⟩, 1)).1

@[grind =] def disjointCubesFrom (idMask : ℕ) : ℕ → List ℕ → List MaskValue
  | _, [] => []
  | 0, _ :: _ => []
  | fuel + 1, id :: ids =>
    let best := bestCube idMask (id :: ids) id
    best :: disjointCubesFrom idMask fuel ((id :: ids).filter fun id => !decide (best.Claims id))

def disjointCubes (idMask : ℕ) (ids : List ℕ) : List MaskValue :=
  disjointCubesFrom idMask ids.length ids

variable {idMask : ℕ} {left : List ℕ}

/-- What the search for the largest cube keeps: the ids of the cube are left, and there is one. -/
structure Inside (idMask : ℕ) (left : List ℕ) (cube : MaskValue) : Prop where
  left : ∀ id ≤ idMask, cube.Claims id → id ∈ left
  some : ∃ id ≤ idMask, cube.Claims id

theorem inside_tryValue {mask size value : ℕ} {best : MaskValue × ℕ} (hvalue : value ≤ idMask)
    (h : Inside idMask left best.1) :
    Inside idMask left (tryValue idMask left mask size best value).1 := by
  rw [tryValue]
  split_ifs with hbetter
  · obtain ⟨_, hmask, hinside⟩ := hbetter
    refine ⟨fun id hid hclaims => ?_, value, hvalue, hmask⟩
    have hle : value ≤ id := by
      have hand : id &&& mask = value := hclaims
      exact hand ▸ Nat.and_le_left
    have hall := List.all_eq_true.1 hinside id (List.mem_range.2 (Nat.lt_succ_of_le hid))
    simp only [hclaims, not_lt.2 hle, decide_false, decide_true, Bool.not_true, Bool.false_or,
      List.contains_iff_mem] at hall
    exact hall
  · exact h

theorem inside_foldl {α : Type*} {f : MaskValue × ℕ → α → MaskValue × ℕ} {xs : List α}
    (hf : ∀ best, Inside idMask left best.1 → ∀ x ∈ xs, Inside idMask left (f best x).1)
    {best : MaskValue × ℕ} (h : Inside idMask left best.1) :
    Inside idMask left (xs.foldl f best).1 := by
  induction xs generalizing best with
  | nil => exact h
  | cons x xs ih =>
    exact ih (fun b hb y hy => hf b hb y (List.mem_cons_of_mem x hy))
      (hf best h x List.mem_cons_self)

theorem inside_tryMask {mask : ℕ} {best : MaskValue × ℕ} (h : Inside idMask left best.1) :
    Inside idMask left (tryMask idMask left best mask).1 := by
  rw [tryMask]
  split_ifs
  · exact h
  · exact inside_foldl (fun b hb value hvalue =>
      inside_tryValue (Nat.le_of_lt_succ (List.mem_range.1 hvalue)) hb) h

theorem claims_zero (id : ℕ) : (⟨0, 0⟩ : MaskValue).Claims id := Nat.and_zero id

/-- A mask of all id bits claims the one id. -/
theorem claims_full {k id value : ℕ} (hid : id ≤ 2 ^ k - 1) :
    (⟨2 ^ k - 1, value⟩ : MaskValue).Claims id ↔ id = value := by
  have hlt : id < 2 ^ k := by
    have := Nat.one_le_two_pow (n := k)
    omega
  rw [MaskValue.Claims, Nat.and_two_pow_sub_one_eq_mod, Nat.mod_eq_of_lt hlt]

/-- **The largest cube lies inside the ids left.** -/
theorem inside_bestCube {k first : ℕ} (hfirst : first ∈ left) (hle : first ≤ 2 ^ k - 1) :
    Inside (2 ^ k - 1) left (bestCube (2 ^ k - 1) left first) := by
  refine inside_foldl (fun b hb mask _ => inside_tryMask hb) ⟨fun id hid hclaims => ?_, first, hle,
    (claims_full hle).2 rfl⟩
  exact (claims_full hid).1 hclaims ▸ hfirst

theorem length_filter_bestCube_lt {k first : ℕ} (ids : List ℕ) (hle : first ≤ 2 ^ k - 1) :
    ((first :: ids).filter fun id =>
      !decide ((bestCube (2 ^ k - 1) (first :: ids) first).Claims id)).length <
        (first :: ids).length := by
  have hinside := inside_bestCube (List.mem_cons_self (a := first) (l := ids)) hle
  obtain ⟨some, hsome, hclaims⟩ := hinside.some
  refine List.length_filter_lt_length_iff_exists.2 ⟨some, hinside.left some hsome hclaims, ?_⟩
  simpa using hclaims

theorem disjointCubesFrom_claims {k fuel : ℕ} {ids : List ℕ} (hfuel : ids.length ≤ fuel)
    (hids : ∀ id ∈ ids, id ≤ 2 ^ k - 1) {id : ℕ} (hid : id ≤ 2 ^ k - 1) :
    (∃ cube ∈ disjointCubesFrom (2 ^ k - 1) fuel ids, cube.Claims id) ↔ id ∈ ids := by
  induction fuel generalizing ids with
  | zero =>
    rw [List.length_eq_zero_iff.1 (Nat.le_zero.1 hfuel)]
    simp [disjointCubesFrom]
  | succ fuel ih =>
    cases ids with
    | nil => simp [disjointCubesFrom]
    | cons first ids =>
      have hlt := length_filter_bestCube_lt ids (hids first List.mem_cons_self)
      rw [disjointCubesFrom]
      set best := bestCube (2 ^ k - 1) (first :: ids) first
      have hinside : Inside (2 ^ k - 1) (first :: ids) best :=
        inside_bestCube List.mem_cons_self (hids first List.mem_cons_self)
      have hkept : ∀ id ∈ (first :: ids).filter fun id => !decide (best.Claims id),
          id ≤ 2 ^ k - 1 := fun id hmem => hids id (List.mem_filter.1 hmem).1
      have hrest := ih (by omega) hkept
      constructor
      · rintro ⟨cube, hcube, hcubeid⟩
        rcases List.mem_cons.1 hcube with rfl | hcube
        · exact hinside.left id hid hcubeid
        · exact (List.mem_filter.1 (hrest.1 ⟨cube, hcube, hcubeid⟩)).1
      · intro hmem
        by_cases hbestid : best.Claims id
        · exact ⟨best, List.mem_cons_self, hbestid⟩
        · obtain ⟨cube, hcube, hcubeid⟩ :=
            hrest.2 (List.mem_filter.2 ⟨hmem, by simpa using hbestid⟩)
          exact ⟨cube, List.mem_cons_of_mem best hcube, hcubeid⟩

/-- **The cubes of a set of ids claim its ids**, and no others. -/
theorem disjointCubes_claims {k : ℕ} {ids : List ℕ} (hids : ∀ id ∈ ids, id ≤ 2 ^ k - 1) {id : ℕ}
    (hid : id ≤ 2 ^ k - 1) :
    (∃ cube ∈ disjointCubes (2 ^ k - 1) ids, cube.Claims id) ↔ id ∈ ids :=
  disjointCubesFrom_claims le_rfl hids hid

theorem exists_claims_of_mem_disjointCubesFrom {k fuel : ℕ} {ids : List ℕ}
    (hids : ∀ id ∈ ids, id ≤ 2 ^ k - 1) {cube : MaskValue}
    (h : cube ∈ disjointCubesFrom (2 ^ k - 1) fuel ids) : ∃ id ≤ 2 ^ k - 1, cube.Claims id := by
  induction fuel generalizing ids with
  | zero => cases ids <;> cases h
  | succ fuel ih =>
    cases ids with
    | nil => cases h
    | cons first ids =>
      rw [disjointCubesFrom] at h
      rcases List.mem_cons.1 h with rfl | h
      · exact (inside_bestCube List.mem_cons_self (hids first List.mem_cons_self)).some
      · exact ih (fun id hmem => hids id (List.mem_filter.1 hmem).1) h

theorem pairwise_disjointCubes {k : ℕ} {ids : List ℕ} (hids : ∀ id ∈ ids, id ≤ 2 ^ k - 1) :
    (disjointCubes (2 ^ k - 1) ids).Pairwise fun c d =>
      ∀ id ≤ 2 ^ k - 1, c.Claims id → ¬ d.Claims id := by
  have hfrom : ∀ (fuel : ℕ) (ids : List ℕ), ids.length ≤ fuel → (∀ id ∈ ids, id ≤ 2 ^ k - 1) →
      (disjointCubesFrom (2 ^ k - 1) fuel ids).Pairwise fun c d =>
        ∀ id ≤ 2 ^ k - 1, c.Claims id → ¬ d.Claims id := by
    intro fuel
    induction fuel with
    | zero =>
      intro ids _ _
      cases ids <;> exact List.Pairwise.nil
    | succ fuel ih =>
      intro ids hfuel hids
      cases ids with
      | nil => exact List.Pairwise.nil
      | cons first ids =>
        have hlt := length_filter_bestCube_lt ids (hids first List.mem_cons_self)
        rw [disjointCubesFrom]
        set best := bestCube (2 ^ k - 1) (first :: ids) first
        have hrest : ∀ id ∈ (first :: ids).filter fun id => !decide (best.Claims id),
            id ≤ 2 ^ k - 1 := fun id hmem => hids id (List.mem_filter.1 hmem).1
        refine List.pairwise_cons.2 ⟨fun cube hcube id hid hbest hcubeid => ?_,
          ih _ (by omega) hrest⟩
        have hmem := (disjointCubesFrom_claims (by omega) hrest hid).1 ⟨cube, hcube, hcubeid⟩
        have hnot := (List.mem_filter.1 hmem).2
        simp [hbest] at hnot
  exact hfrom ids.length ids le_rfl hids

theorem disjointCubes_three : (disjointCubes (2 ^ 2 - 1) [1, 2, 3]).Pairwise fun c d =>
    ∀ id ≤ 2 ^ 2 - 1, c.Claims id → ¬ d.Claims id :=
  pairwise_disjointCubes (k := 2) (by decide)

end MlirAie.Flows
