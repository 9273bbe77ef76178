import MlirAie.Lib.Cover
import MlirAie.Lib.Cubes

/-!
# Packet rules from as few cubes as possible

The ids a group of flows claims on a slave port are covered by cubes that hold no id the others
claim: the largest such cubes are enumerated, the fewest of them that hold every id are picked, and
each of those is tightened to the ids it took.

* `bnbMinCover`: the fewest of them;
* `computeSubcubeCover`: those, tightened;
* **`computeSubcubeCover_minimal`**: the rules match, avoid, and are as few as can be.
-/

namespace MlirAie.Route

open Lib

/-! ## The rules -/

/-- A cube, and the match ids it holds. -/
structure CoverCube where
  cube : Cube
  cov : List ℕ
deriving DecidableEq, Repr, Inhabited

def mostConstrained (cubes : List CoverCube) (uncovered : List ℕ) : ℕ :=
  (uncovered.foldl (fun best id =>
    let c := cubes.countP fun cb => decide (id ∈ cb.cov)
    if c < best.2 then (id, c) else best) (0, cubes.length + 1)).1

def bnbMinCover (cubes : List CoverCube) (fuel : ℕ) (uncovered : List ℕ) (sel : List CoverCube)
    (best : Best CoverCube) : Best CoverCube :=
  minCover (fun cb id => decide (id ∈ cb.cov)) (mostConstrained cubes) cubes fuel uncovered sel best

def cubesIntersect (a b : Cube) : Bool := (a.value ^^^ b.value) &&& a.mask &&& b.mask = 0

def hitsAvoid (avoidCubes : List Cube) (c : Cube) : Bool := avoidCubes.any (cubesIntersect c)

/-- The ids of the width that are to be matched. -/
def matchMask (matchIds : List ℕ) (idBits : ℕ) : List ℕ :=
  (List.range (1 <<< idBits)).filter (· ∈ matchIds)

/-- The cube with a mask and a value, if it is one, holds a match id, avoids the others and is
largest. -/
def primeAt (matchIds : List ℕ) (avoidCubes : List Cube) (idBits mask value : ℕ) :
    Option CoverCube :=
  if value &&& mask ≠ value then none
  else if hitsAvoid avoidCubes ⟨mask, value⟩ then none
  else
    let cov := (matchMask matchIds idBits).filter fun id => id &&& mask = value
    if cov = [] then none
    else if (Cube.mk mask value).isPrime idBits (hitsAvoid avoidCubes) then
      some ⟨⟨mask, value⟩, cov⟩
    else none

def primes (matchIds : List ℕ) (avoidCubes : List Cube) (idBits : ℕ) : List CoverCube :=
  (List.range (1 <<< idBits)).flatMap fun mask =>
    (List.range (1 <<< idBits)).filterMap fun value =>
      primeAt matchIds avoidCubes idBits mask value

/-- The fewest cubes that hold every match id; one for each id if there were none. -/
def chosenCubes (matchIds : List ℕ) (avoidCubes : List Cube) (idBits : ℕ) : List Cube :=
  let best := bnbMinCover (primes matchIds avoidCubes idBits) (1 <<< idBits)
    (matchMask matchIds idBits) [] ⟨matchIds.length + 1, []⟩
  let chosen := best.sel.map CoverCube.cube
  if chosen = [] then matchIds.map fun id => ⟨1 <<< idBits - 1, id⟩ else chosen

/-- The match ids that take the cube with an index, the first that holds them. -/
def assigned (chosen : List Cube) (matchIds : List ℕ) (c : ℕ) : List ℕ :=
  matchIds.filter fun id => chosen.findIdx? (fun q => id &&& q.mask = q.value) = some c

/-- The mask of the smallest cube around some ids: without the bits they differ on. -/
def commonBits (idBits : ℕ) (ids : List ℕ) : ℕ :=
  (List.range idBits).foldl (fun mask i =>
    if ids.any fun id => id.testBit i != (ids.headD 0).testBit i then andNot mask (1 <<< i)
    else mask) (1 <<< idBits - 1)

/-- The smallest cube around some ids. -/
def tighten (idBits : ℕ) (ids : List ℕ) : Cube :=
  ⟨commonBits idBits ids, ids.headD 0 &&& commonBits idBits ids⟩

def computeSubcubeCover (matchIds : List ℕ) (avoidCubes : List Cube) (idBits : ℕ) : List Cube :=
  let chosen := chosenCubes matchIds avoidCubes idBits
  ((List.range chosen.length).map (assigned chosen matchIds)).filterMap fun ids =>
    if ids = [] then none else some (tighten idBits ids)

/-! ## Largest cubes -/

variable {matchIds : List ℕ} {avoidCubes : List Cube} {idBits : ℕ}

theorem cubesIntersect_iff {a b : Cube} (ha : a.mask < 2 ^ idBits) :
    cubesIntersect a b = true ↔ a.Meets idBits b := by
  rw [cubesIntersect, decide_eq_true_eq, Cube.meets_iff]
  constructor
  · intro h i hi hai hbi
    have hbit := congrArg (Nat.testBit · i) h
    simpa [hai, hbi] using hbit
  · intro h
    refine Nat.eq_of_testBit_eq fun i => ?_
    simp only [Nat.testBit_and, Nat.testBit_xor, Nat.zero_testBit]
    by_cases hi : i < idBits
    · cases hai : a.mask.testBit i with
      | false => simp
      | true =>
        cases hbi : b.mask.testBit i with
        | false => simp
        | true => simp [h i hi hai hbi]
    · rw [testBit_eq_false ha (not_lt.1 hi)]
      simp

theorem hitsAvoid_eq_false_iff {c : Cube} (hc : c.mask < 2 ^ idBits) :
    hitsAvoid avoidCubes c = false ↔ ∀ d ∈ avoidCubes, ¬c.Meets idBits d := by
  rw [hitsAvoid, List.any_eq_false]
  refine forall₂_congr fun d _ => ?_
  rw [cubesIntersect_iff hc]

theorem mem_matchMask (hids : ∀ id ∈ matchIds, id < 2 ^ idBits) {id : ℕ} :
    id ∈ matchMask matchIds idBits ↔ id ∈ matchIds := by
  rw [matchMask, List.mem_filter, List.mem_range, Nat.one_shiftLeft, decide_eq_true_eq]
  exact and_iff_right_of_imp (hids id)

theorem primeAt_eq_some_iff {mask value : ℕ} {p : CoverCube} :
    primeAt matchIds avoidCubes idBits mask value = some p ↔
      value &&& mask = value ∧ hitsAvoid avoidCubes ⟨mask, value⟩ = false ∧
        (matchMask matchIds idBits).filter (fun id => id &&& mask = value) ≠ [] ∧
        (Cube.mk mask value).isPrime idBits (hitsAvoid avoidCubes) = true ∧
        p = ⟨⟨mask, value⟩, (matchMask matchIds idBits).filter fun id => id &&& mask = value⟩ := by
  simp only [primeAt]
  split_ifs with h₁ h₂ h₃ h₄
  · simp [h₁]
  · simp [h₂]
  · simp [h₃]
  · rw [Bool.not_eq_true] at h₂
    constructor
    · intro h
      exact ⟨not_not.1 h₁, h₂, h₃, h₄, (Option.some.inj h).symm⟩
    · rintro ⟨-, -, -, -, rfl⟩
      rfl
  · simp [h₄]

theorem mem_primes_iff {p : CoverCube} :
    p ∈ primes matchIds avoidCubes idBits ↔ p.cube.mask < 2 ^ idBits ∧
      p.cube.value < 2 ^ idBits ∧
      primeAt matchIds avoidCubes idBits p.cube.mask p.cube.value = some p := by
  simp only [primes, List.mem_flatMap, List.mem_filterMap, List.mem_range, Nat.one_shiftLeft]
  constructor
  · rintro ⟨mask, hmask, value, hvalue, h⟩
    obtain ⟨-, -, -, -, rfl⟩ := primeAt_eq_some_iff.1 h
    exact ⟨hmask, hvalue, h⟩
  · rintro ⟨hmask, hvalue, h⟩
    exact ⟨_, hmask, _, hvalue, h⟩

/-- What is a prime. -/
theorem of_mem_primes {p : CoverCube} (hp : p ∈ primes matchIds avoidCubes idBits) :
    p.cube.Within idBits ∧ hitsAvoid avoidCubes p.cube = false ∧
      ∀ id, id ∈ p.cov ↔ id ∈ matchMask matchIds idBits ∧ p.cube.Matches idBits id := by
  obtain ⟨hmask, _, h⟩ := mem_primes_iff.1 hp
  obtain ⟨hsub, hfree, -, -, hcov⟩ := primeAt_eq_some_iff.1 h
  have hwithin : p.cube.Within idBits := ⟨hmask, hsub⟩
  refine ⟨hwithin, hfree, fun id => ?_⟩
  rw [hwithin.matches_iff, hcov, List.mem_filter, decide_eq_true_eq]

/-- **A cube that holds a match id and avoids the others lies in a prime.** -/
theorem exists_mem_primes {c : Cube} (hc : c.Within idBits)
    (hfree : hitsAvoid avoidCubes c = false) {id : ℕ} (hid : id ∈ matchMask matchIds idBits)
    (hmatch : c.Matches idBits id) :
    ∃ p ∈ primes matchIds avoidCubes idBits, ∀ x, c.Matches idBits x →
      p.cube.Matches idBits x := by
  obtain ⟨q, hq, hqfree, hprime, hsub⟩ := Cube.exists_prime hc hfree
  refine ⟨⟨q, (matchMask matchIds idBits).filter fun id => id &&& q.mask = q.value⟩, ?_, hsub⟩
  refine mem_primes_iff.2 ⟨hq.lt, hq.value_lt, primeAt_eq_some_iff.2
    ⟨hq.sub, hqfree, List.ne_nil_of_mem (a := id) ?_, hprime, rfl⟩⟩
  exact List.mem_filter.2 ⟨hid, decide_eq_true (hq.matches_iff.1 (hsub id hmatch))⟩

/-! ## The fewest of them -/

theorem mostConstrained_mem (cubes : List CoverCube) :
    ∀ l ≠ [], mostConstrained cubes l ∈ l := by
  -- the count of the first id is below the bound the search for a minimum starts from
  let step : ℕ × ℕ → ℕ → ℕ × ℕ := fun best id =>
    let c := cubes.countP fun cb => decide (id ∈ cb.cov)
    if c < best.2 then (id, c) else best
  have hkeep : ∀ (l : List ℕ) (best : ℕ × ℕ), (l.foldl step best).1 ∈ best.1 :: l := by
    intro l
    induction l with
    | nil => exact fun best => List.mem_singleton_self _
    | cons id l ih =>
      intro best
      have h := ih (step best id)
      rw [List.foldl_cons]
      rcases List.mem_cons.1 h with h | h
      · rw [h]
        show (if _ then _ else _ : ℕ × ℕ).1 ∈ _
        split_ifs
        exacts [List.mem_cons_of_mem _ List.mem_cons_self, List.mem_cons_self]
      · exact List.mem_cons_of_mem _ (List.mem_cons_of_mem _ h)
  intro l hl
  cases l with
  | nil => exact absurd rfl hl
  | cons id l =>
    have hfirst : step (0, cubes.length + 1) id =
        (id, cubes.countP fun cb => decide (id ∈ cb.cov)) :=
      if_pos (Nat.lt_succ_of_le List.countP_le_length)
    show ((id :: l).foldl step (0, cubes.length + 1)).1 ∈ _
    rw [List.foldl_cons, hfirst]
    exact hkeep l _

/-- Rules that match the ids, and no cube to avoid. -/
structure CoversApart (matchIds : List ℕ) (avoidCubes : List Cube) (idBits : ℕ)
    (rules : List Cube) : Prop where
  covered : ∀ id ∈ matchIds, ∃ r ∈ rules, r.Matches idBits id
  apart : ∀ r ∈ rules, ∀ c ∈ avoidCubes, ¬r.Meets idBits c

theorem CoversApart.exists_primes (hids : ∀ id ∈ matchIds, id < 2 ^ idBits) {rules : List Cube}
    (h : CoversApart matchIds avoidCubes idBits rules) :
    ∃ C ⊆ primes matchIds avoidCubes idBits, C.length ≤ rules.length ∧
      ∀ id ∈ matchMask matchIds idBits, ∃ p ∈ C, id ∈ p.cov := by
  have hprime : ∀ r ∈ rules, (∃ id ∈ matchIds, r.Matches idBits id) →
      ∃ p ∈ primes matchIds avoidCubes idBits, ∀ x, r.Matches idBits x →
        p.cube.Matches idBits x := by
    rintro r hr ⟨id, hid, hmatch⟩
    have hfree : hitsAvoid avoidCubes (r.restrict idBits) = false := by
      rw [hitsAvoid_eq_false_iff (Cube.within_restrict _ _).lt]
      rintro c hc ⟨x, hx, hrx, hcx⟩
      exact h.apart r hr c hc ⟨x, hx, Cube.matches_restrict.1 hrx, hcx⟩
    obtain ⟨p, hp, hsub⟩ := exists_mem_primes (Cube.within_restrict _ _) hfree
      ((mem_matchMask hids).2 hid) (Cube.matches_restrict.2 hmatch)
    exact ⟨p, hp, fun x hx => hsub x (Cube.matches_restrict.2 hx)⟩
  choose! f hf hsub using hprime
  classical
  let used := rules.filter fun r => decide (∃ id ∈ matchIds, r.Matches idBits id)
  have hused : ∀ {r}, r ∈ used → r ∈ rules ∧ ∃ id ∈ matchIds, r.Matches idBits id := by
    intro r hr
    obtain ⟨hr, hid⟩ := List.mem_filter.1 hr
    exact ⟨hr, of_decide_eq_true hid⟩
  refine ⟨used.map f, ?_, ?_, fun id hid => ?_⟩
  · intro p hp
    obtain ⟨r, hr, rfl⟩ := List.mem_map.1 hp
    exact hf r (hused hr).1 (hused hr).2
  · rw [List.length_map]
    exact List.length_filter_le _ _
  · have hid' := (mem_matchMask hids).1 hid
    obtain ⟨r, hr, hmatch⟩ := h.covered id hid'
    have hru : ∃ id ∈ matchIds, r.Matches idBits id := ⟨id, hid', hmatch⟩
    refine ⟨f r, List.mem_map_of_mem (List.mem_filter.2 ⟨hr, decide_eq_true hru⟩), ?_⟩
    exact ((of_mem_primes (hf r hr hru)).2.2 id).2 ⟨hid, hsub r hr hru id hmatch⟩

/-- The cube of one id. -/
theorem within_single {id : ℕ} (hid : id < 2 ^ idBits) :
    (Cube.mk (2 ^ idBits - 1) id).Within idBits where
  lt := Nat.sub_lt (Nat.two_pow_pos idBits) Nat.one_pos
  sub := by
    show id &&& (2 ^ idBits - 1) = id
    rw [Nat.and_two_pow_sub_one_eq_mod, Nat.mod_eq_of_lt hid]

theorem matches_single {id x : ℕ} (hid : id < 2 ^ idBits) (hx : x < 2 ^ idBits) :
    (Cube.mk (2 ^ idBits - 1) id).Matches idBits x ↔ x = id := by
  rw [(within_single hid).matches_iff, Nat.and_two_pow_sub_one_eq_mod, Nat.mod_eq_of_lt hx]

theorem coversApart_single (hids : ∀ id ∈ matchIds, id < 2 ^ idBits)
    (havoid : ∀ c ∈ avoidCubes, ∀ id ∈ matchIds, ¬c.Matches idBits id) :
    CoversApart matchIds avoidCubes idBits (matchIds.map fun id => ⟨2 ^ idBits - 1, id⟩) where
  covered id hid := ⟨_, List.mem_map_of_mem hid,
    (matches_single (hids id hid) (hids id hid)).2 rfl⟩
  apart r hr c hc := by
    obtain ⟨id, hid, rfl⟩ := List.mem_map.1 hr
    rintro ⟨x, hx, hrx, hcx⟩
    rw [(matches_single (hids id hid) hx).1 hrx] at hcx
    exact havoid c hc id hid hcx

theorem chosenCubes_spec (hids : ∀ id ∈ matchIds, id < 2 ^ idBits)
    (havoid : ∀ c ∈ avoidCubes, ∀ id ∈ matchIds, ¬c.Matches idBits id) :
    (∀ q ∈ chosenCubes matchIds avoidCubes idBits, q.Within idBits) ∧
      CoversApart matchIds avoidCubes idBits (chosenCubes matchIds avoidCubes idBits) ∧
      ∀ rules, CoversApart matchIds avoidCubes idBits rules →
        (chosenCubes matchIds avoidCubes idBits).length ≤ rules.length := by
  let covers : CoverCube → ℕ → Bool := fun cb id => decide (id ∈ cb.cov)
  let best := bnbMinCover (primes matchIds avoidCubes idBits) (1 <<< idBits)
    (matchMask matchIds idBits) [] ⟨matchIds.length + 1, []⟩
  have hfuel : (matchMask matchIds idBits).length ≤ 1 <<< idBits :=
    (List.length_filter_le _ _).trans_eq List.length_range
  have hle : ∀ rules, CoversApart matchIds avoidCubes idBits rules →
      best.size ≤ rules.length := by
    intro rules hrules
    obtain ⟨C, hC, hlen, hcov⟩ := hrules.exists_primes hids
    have hcovers : ∀ id ∈ matchMask matchIds idBits, ∃ c ∈ C, covers c id :=
      fun id hid => (hcov id hid).imp fun p hp => ⟨hp.1, decide_eq_true hp.2⟩
    have h : best.size ≤ ([] : List CoverCube).length + C.length :=
      minCover_le (mostConstrained_mem (primes matchIds avoidCubes idBits)) hfuel hC hcovers
    rw [List.length_nil, zero_add] at h
    exact h.trans hlen
  have hsmall : best.size ≤ matchIds.length := by
    simpa using hle _ (coversApart_single hids havoid)
  obtain ⟨hsize, C, hC, hcov, hsel⟩ :
      best.sel.length = best.size ∧ ∃ C ⊆ primes matchIds avoidCubes idBits,
        (∀ id ∈ matchMask matchIds idBits, ∃ c ∈ C, covers c id) ∧ best.sel = [] ++ C := by
    have hfound : Found covers (primes matchIds avoidCubes idBits) (matchMask matchIds idBits) []
        ⟨matchIds.length + 1, []⟩ best := minCover_sel _ _ _ _
    refine hfound.resolve_left fun h => ?_
    have h : best.size = matchIds.length + 1 := congrArg Best.size h
    omega
  rw [List.nil_append] at hsel
  have hchosen : chosenCubes matchIds avoidCubes idBits = C.map CoverCube.cube := by
    have hdef : chosenCubes matchIds avoidCubes idBits =
        if best.sel.map CoverCube.cube = [] then matchIds.map fun id => ⟨1 <<< idBits - 1, id⟩
        else best.sel.map CoverCube.cube := rfl
    rw [hdef, hsel]
    split_ifs with hempty
    · -- nothing was picked, so there was nothing to cover
      rw [hempty, List.map_eq_nil_iff]
      refine List.eq_nil_iff_forall_not_mem.2 fun id hid => ?_
      obtain ⟨c, hc, -⟩ := hcov id ((mem_matchMask hids).2 hid)
      rw [List.map_eq_nil_iff.1 hempty] at hc
      cases hc
    · rfl
  have hprime : ∀ q ∈ C.map CoverCube.cube, q.Within idBits ∧ hitsAvoid avoidCubes q = false := by
    intro q hq
    obtain ⟨p, hp, rfl⟩ := List.mem_map.1 hq
    have h := of_mem_primes (hC hp)
    exact ⟨h.1, h.2.1⟩
  rw [hchosen]
  refine ⟨fun q hq => (hprime q hq).1, ⟨fun id hid => ?_, fun q hq => ?_⟩, fun rules hrules => ?_⟩
  · obtain ⟨p, hp, hid⟩ := hcov id ((mem_matchMask hids).2 hid)
    exact ⟨p.cube, List.mem_map_of_mem hp,
      ((of_mem_primes (hC hp)).2.2 id).1 (of_decide_eq_true hid) |>.2⟩
  · exact (hitsAvoid_eq_false_iff (hprime q hq).1.lt).1 (hprime q hq).2
  · rw [List.length_map, ← hsel, hsize]
    exact hle rules hrules

/-! ## Tightening -/

theorem testBit_commonBits (ids : List ℕ) (i : ℕ) : (commonBits idBits ids).testBit i = true ↔
    i < idBits ∧ ∀ id ∈ ids, id.testBit i = (ids.headD 0).testBit i := by
  let differ : ℕ → Bool := fun i => ids.any fun id => id.testBit i != (ids.headD 0).testBit i
  have hfold : ∀ (l : List ℕ) (m : ℕ),
      (l.foldl (fun mask i => if differ i then andNot mask (1 <<< i) else mask) m).testBit i =
        (m.testBit i && !(decide (i ∈ l) && differ i)) := by
    intro l
    induction l with
    | nil => exact fun m => by simp
    | cons j l ih =>
      intro m
      rw [List.foldl_cons, ih]
      by_cases hij : i = j
      · subst hij
        cases hd : differ i
        · simp
        · simp [Cube.testBit_one_shiftLeft, -Nat.testBit_shiftLeft]
      · split_ifs with hd
        · simp [hij, Cube.testBit_one_shiftLeft, Ne.symm hij, -Nat.testBit_shiftLeft]
        · simp [hij]
  have h := hfold (List.range idBits) (1 <<< idBits - 1)
  rw [Nat.one_shiftLeft, Nat.testBit_two_pow_sub_one] at h
  show (List.foldl _ (1 <<< idBits - 1) _).testBit i = true ↔ _
  rw [Nat.one_shiftLeft, h]
  simp only [differ, Bool.and_eq_true, decide_eq_true_eq, Bool.not_eq_true', Bool.and_eq_false_iff,
    decide_eq_false_iff_not, List.mem_range, List.any_eq_false, bne_iff_ne, ne_eq, not_not]
  refine and_congr_right fun hi => ?_
  rw [or_iff_right (not_not.2 hi)]

theorem within_tighten (ids : List ℕ) : (tighten idBits ids).Within idBits where
  lt := by
    refine Nat.lt_pow_two_of_testBit _ fun i hi => ?_
    by_contra h
    rw [Bool.not_eq_false] at h
    exact absurd ((testBit_commonBits ids i).1 h).1 (not_lt.2 hi)
  sub := by
    show ids.headD 0 &&& commonBits idBits ids &&& commonBits idBits ids =
      ids.headD 0 &&& commonBits idBits ids
    rw [Nat.and_assoc, Nat.and_self]

theorem spans_tighten {ids : List ℕ} (hids : ids ≠ []) : (tighten idBits ids).Spans idBits ids := by
  have hhead : ids.headD 0 ∈ ids := by
    obtain ⟨id, ids, rfl⟩ := List.exists_cons_of_ne_nil hids
    exact List.mem_cons_self
  intro x
  refine forall₂_congr fun i hi => ?_
  have hmask : (tighten idBits ids).mask.testBit i = true ↔ _ := testBit_commonBits ids i
  rw [hmask]
  constructor
  · intro h b hb
    have hagree : i < idBits ∧ ∀ id ∈ ids, id.testBit i = (ids.headD 0).testBit i :=
      ⟨hi, fun id hid => by rw [hb id hid, hb _ hhead]⟩
    rw [h hagree]
    show (ids.headD 0 &&& commonBits idBits ids).testBit i = b
    rw [Nat.testBit_and, hb _ hhead, (testBit_commonBits ids i).2 hagree, Bool.and_true]
  · rintro h ⟨_, hagree⟩
    rw [h _ hagree]
    show _ = (ids.headD 0 &&& commonBits idBits ids).testBit i
    rw [Nat.testBit_and, (testBit_commonBits ids i).2 ⟨hi, hagree⟩, Bool.and_true]

theorem mem_computeSubcubeCover {r : Cube} : r ∈ computeSubcubeCover matchIds avoidCubes idBits ↔
    ∃ c < (chosenCubes matchIds avoidCubes idBits).length,
      assigned (chosenCubes matchIds avoidCubes idBits) matchIds c ≠ [] ∧
        tighten idBits (assigned (chosenCubes matchIds avoidCubes idBits) matchIds c) = r := by
  simp only [computeSubcubeCover, List.mem_filterMap, List.mem_map, List.mem_range]
  constructor
  · rintro ⟨_, ⟨c, hc, rfl⟩, h⟩
    split_ifs at h with hempty
    exact ⟨c, hc, hempty, Option.some.inj h⟩
  · rintro ⟨c, hc, hne, rfl⟩
    exact ⟨_, ⟨c, hc, rfl⟩, if_neg hne⟩

theorem within_of_mem_computeSubcubeCover {r : Cube}
    (hr : r ∈ computeSubcubeCover matchIds avoidCubes idBits) : r.Within idBits := by
  obtain ⟨c, _, _, rfl⟩ := mem_computeSubcubeCover.1 hr
  exact within_tighten _

theorem matches_of_mem_assigned {chosen : List Cube} (hwithin : ∀ q ∈ chosen, q.Within idBits)
    {c : ℕ} (hc : c < chosen.length) {id : ℕ} (hid : id ∈ assigned chosen matchIds c) :
    (chosen.get ⟨c, hc⟩).Matches idBits id := by
  obtain ⟨_, h⟩ := List.mem_filter.1 hid
  obtain ⟨_, hmatch, _⟩ := List.findIdx?_eq_some_iff_getElem.1 (of_decide_eq_true h)
  exact (hwithin _ (List.get_mem chosen ⟨c, hc⟩)).matches_iff.2 (of_decide_eq_true hmatch)

theorem exists_mem_assigned {chosen : List Cube} (hwithin : ∀ q ∈ chosen, q.Within idBits)
    {id : ℕ} (hid : id ∈ matchIds) (hcovered : ∃ q ∈ chosen, q.Matches idBits id) :
    ∃ c < chosen.length, id ∈ assigned chosen matchIds c := by
  obtain ⟨q, hq, hmatch⟩ := hcovered
  have hsome : (chosen.findIdx? fun q => id &&& q.mask = q.value).isSome := by
    rw [List.findIdx?_isSome, List.any_eq_true]
    exact ⟨q, hq, decide_eq_true ((hwithin q hq).matches_iff.1 hmatch)⟩
  obtain ⟨c, hc⟩ := Option.isSome_iff_exists.1 hsome
  obtain ⟨hlt, _⟩ := List.findIdx?_eq_some_iff_getElem.1 hc
  exact ⟨c, hlt, List.mem_filter.2 ⟨hid, decide_eq_true hc⟩⟩

theorem length_computeSubcubeCover_le : (computeSubcubeCover matchIds avoidCubes idBits).length ≤
    (chosenCubes matchIds avoidCubes idBits).length := by
  rw [computeSubcubeCover]
  refine (List.length_filterMap_le _ _).trans_eq ?_
  rw [List.length_map, List.length_range]

/-- **The rules match every id and no cube to avoid, and no rules that do are fewer**, whatever the
id width, the ids, and the cubes to avoid that hold none of them. -/
theorem computeSubcubeCover_minimal (hids : ∀ id ∈ matchIds, id < 2 ^ idBits)
    (havoid : ∀ c ∈ avoidCubes, ∀ id ∈ matchIds, ¬c.Matches idBits id) :
    CoversApart matchIds avoidCubes idBits (computeSubcubeCover matchIds avoidCubes idBits) ∧
      ∀ rules, CoversApart matchIds avoidCubes idBits rules →
        (computeSubcubeCover matchIds avoidCubes idBits).length ≤ rules.length := by
  obtain ⟨hwithin, hchosen, hleast⟩ := chosenCubes_spec hids havoid
  refine ⟨⟨fun id hid => ?_, fun r hr c hc => ?_⟩, fun rules hrules =>
    length_computeSubcubeCover_le.trans (hleast rules hrules)⟩
  · obtain ⟨c, hlt, hmem⟩ := exists_mem_assigned hwithin hid (hchosen.covered id hid)
    have hne := List.ne_nil_of_mem hmem
    exact ⟨_, mem_computeSubcubeCover.mpr ⟨c, hlt, hne, rfl⟩,
      (spans_tighten hne).matches_of_mem hmem⟩
  · obtain ⟨k, hlt, hne, rfl⟩ := mem_computeSubcubeCover.mp hr
    rintro ⟨x, hx, hrx, hcx⟩
    refine hchosen.apart _ (List.get_mem _ ⟨k, hlt⟩) c hc ⟨x, hx, ?_, hcx⟩
    exact (spans_tighten hne).sub (fun id hid => matches_of_mem_assigned hwithin hlt hid) hrx

theorem computeSubcubeCover_minimal_two :
    CoversApart [2, 4] [⟨31, 0⟩] 5 (computeSubcubeCover [2, 4] [⟨31, 0⟩] 5) ∧
      ∀ rules, CoversApart [2, 4] [⟨31, 0⟩] 5 rules →
        (computeSubcubeCover [2, 4] [⟨31, 0⟩] 5).length ≤ rules.length :=
  computeSubcubeCover_minimal (by decide) (by decide)

example : computeSubcubeCover [2, 4] [⟨31, 0⟩] 5 = [⟨31, 2⟩, ⟨31, 4⟩] := by decide +kernel

end MlirAie.Route
