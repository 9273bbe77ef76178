import MlirAie.Route.Ordered

/-!
# First-match rules are as few as can be

The first rule of any list that matches an id left takes ids of one group, all the ids left in its
cube. So it takes no more than some move of the search, and taking more ids of a group never needs
more rules later.

* `Serves`: a rule list sends the ids of a set to their groups;
* `OrderedProblem.search_serves`: what the search finds serves what was left;
* **`orderedRules_optimal`**: the rules are the shortest list within the budget, if there is one.
-/

namespace MlirAie.Route

open Lib

/-! ## The ids of a cube -/

variable {idBits : ℕ} {id : ℕ} {c : Cube}

theorem mem_cubeIds :
    id ∈ cubeIds c idBits ↔ id < 2 ^ idBits ∧ id &&& c.mask = c.value &&& c.mask := by
  rw [cubeIds, Finset.mem_filter, Finset.mem_range, Nat.one_shiftLeft]

theorem mem_cubeIds_of_within (hc : c.Within idBits) :
    id ∈ cubeIds c idBits ↔ id < 2 ^ idBits ∧ c.Matches idBits id := by
  rw [mem_cubeIds, hc.matches_iff, hc.sub]

theorem exists_within_cubeIds (hid : id ∈ cubeIds c idBits) :
    ∃ d : Cube, d.Within idBits ∧ cubeIds c idBits = cubeIds d idBits := by
  have hmask : ∀ {x}, x < 2 ^ idBits → x &&& c.mask = x &&& (c.mask % 2 ^ idBits) := by
    intro x hx
    refine Nat.eq_of_testBit_eq fun i => ?_
    rw [Nat.testBit_and, Nat.testBit_and, Nat.testBit_mod_two_pow]
    by_cases hi : i < idBits
    · rw [decide_eq_true hi, Bool.true_and]
    · rw [testBit_eq_false hx (not_lt.1 hi), Bool.false_and, Bool.false_and]
  obtain ⟨hlt, heq⟩ := mem_cubeIds.1 hid
  refine ⟨⟨c.mask % 2 ^ idBits, id &&& (c.mask % 2 ^ idBits)⟩,
    ⟨Nat.mod_lt _ (Nat.two_pow_pos _), ?_⟩, ?_⟩
  · show id &&& _ &&& _ = id &&& _
    rw [Nat.and_assoc, Nat.and_self]
  · ext x
    rw [mem_cubeIds, mem_cubeIds]
    refine and_congr_right fun hx => ?_
    rw [Nat.and_assoc, Nat.and_self, ← hmask hx, ← hmask hlt, heq]

theorem testBit_foldl_and (l : List ℕ) (m i : ℕ) :
    (l.foldl (· &&& ·) m).testBit i = (m.testBit i && l.all fun id => id.testBit i) := by
  induction l generalizing m with
  | nil => simp
  | cons id l ih => rw [List.foldl_cons, ih, Nat.testBit_and, List.all_cons, Bool.and_assoc]

theorem testBit_foldl_or (l : List ℕ) (m i : ℕ) :
    (l.foldl (· ||| ·) m).testBit i = (m.testBit i || l.any fun id => id.testBit i) := by
  induction l generalizing m with
  | nil => simp
  | cons id l ih => rw [List.foldl_cons, ih, Nat.testBit_or, List.any_cons, Bool.or_assoc]

/-- The ids of a set, in order. -/
def idList (idBits : ℕ) (own : Finset ℕ) : List ℕ := (List.range (1 <<< idBits)).filter (· ∈ own)

theorem mem_idList {own : Finset ℕ} :
    id ∈ idList idBits own ↔ id < 2 ^ idBits ∧ id ∈ own := by
  rw [idList, List.mem_filter, List.mem_range, Nat.one_shiftLeft, decide_eq_true_eq]

theorem testBit_tightest {own : Finset ℕ} {i : ℕ} (hi : i < idBits) :
    ((tightest idBits own).value.testBit i = true ↔
        ∀ id ∈ idList idBits own, id.testBit i = true) ∧
      ((tightest idBits own).mask.testBit i = true ↔
        ((∀ id ∈ idList idBits own, id.testBit i = true) ↔
          ∃ id ∈ idList idBits own, id.testBit i = true)) := by
  have hfull : (1 <<< idBits - 1).testBit i = true := by
    rw [Nat.one_shiftLeft, Nat.testBit_two_pow_sub_one, decide_eq_true hi]
  have hall : (tightest idBits own).value.testBit i =
      (idList idBits own).all fun id => id.testBit i := by
    show ((idList idBits own).foldl (· &&& ·) (1 <<< idBits - 1)).testBit i = _
    rw [testBit_foldl_and, hfull, Bool.true_and]
  refine ⟨by rw [hall, List.all_eq_true], ?_⟩
  show (andNot _ ((tightest idBits own).value ^^^
    (idList idBits own).foldl _ 0)).testBit i = true ↔ _
  rw [testBit_andNot, hfull, Bool.true_and, Nat.testBit_xor, hall, testBit_foldl_or,
    Nat.zero_testBit, Bool.false_or, Bool.not_eq_true', bne_eq_false_iff_eq, Bool.eq_iff_iff,
    List.all_eq_true, List.any_eq_true]

theorem spans_tightest {own : Finset ℕ} (hown : (idList idBits own) ≠ []) :
    (tightest idBits own).Spans idBits (idList idBits own) := by
  obtain ⟨first, hfirst⟩ := List.exists_mem_of_ne_nil _ hown
  intro x
  refine forall₂_congr fun i hi => ?_
  obtain ⟨hvalue, hmask⟩ : _ ∧ ((tightest idBits own).mask.testBit i = true ↔ _) :=
    testBit_tightest hi
  rw [hmask]
  constructor
  · intro h b hb
    have hsame : (∀ id ∈ idList idBits own, id.testBit i = true) ↔
        ∃ id ∈ idList idBits own, id.testBit i = true :=
      ⟨fun h => ⟨first, hfirst, h first hfirst⟩, fun ⟨id, hid, h⟩ id' hid' => by
        rw [hb id' hid', ← hb id hid, h]⟩
    rw [h hsame, Bool.eq_iff_iff, hvalue]
    exact ⟨fun h => by rw [← hb first hfirst, h first hfirst], fun h id hid => by rw [hb id hid, h]⟩
  · intro h hsame
    refine h _ fun id hid => ?_
    rw [Bool.eq_iff_iff, hvalue]
    exact ⟨fun hbit => hsame.2 ⟨id, hid, hbit⟩, fun hall => hall id hid⟩

theorem within_tightest {own : Finset ℕ} (hown : idList idBits own ≠ []) :
    (tightest idBits own).Within idBits where
  lt := by
    refine Nat.lt_pow_two_of_testBit _ fun i hi => ?_
    show (andNot (1 <<< idBits - 1) _).testBit i = false
    rw [testBit_andNot, Nat.one_shiftLeft, Nat.testBit_two_pow_sub_one,
      decide_eq_false (not_lt.2 hi), Bool.false_and]
  sub := by
    obtain ⟨first, hfirst⟩ := List.exists_mem_of_ne_nil _ hown
    refine Nat.eq_of_testBit_eq fun i => ?_
    rw [Nat.testBit_and, Bool.and_eq_left_iff_imp]
    intro hvalue
    have hi : i < idBits := by
      by_contra hle
      have hzero : ((idList idBits own).foldl (· &&& ·) (1 <<< idBits - 1)).testBit i = true :=
        hvalue
      rw [testBit_foldl_and, Nat.one_shiftLeft, Nat.testBit_two_pow_sub_one,
        decide_eq_false hle, Bool.false_and] at hzero
      cases hzero
    obtain ⟨hall, hmask⟩ : _ ∧ ((tightest idBits own).mask.testBit i = true ↔ _) :=
      testBit_tightest hi
    rw [hmask]
    have hbits := hall.1 hvalue
    exact iff_of_true hbits ⟨first, hfirst, hbits first hfirst⟩

theorem subset_cubeIds_tightest {own cube : Finset ℕ} (hne : own.Nonempty) (hsub : own ⊆ cube)
    (hc : c.Within idBits) (hcube : cube = cubeIds c idBits) :
    own ⊆ cubeIds (tightest idBits own) idBits ∧ cubeIds (tightest idBits own) idBits ⊆ cube := by
  subst hcube
  have hlist : ∀ id, id ∈ idList idBits own ↔ id ∈ own := fun id => by
    rw [mem_idList, and_iff_right_of_imp]
    exact fun hid => (mem_cubeIds.1 (hsub hid)).1
  obtain ⟨first, hfirst⟩ := hne
  have hown : idList idBits own ≠ [] := List.ne_nil_of_mem ((hlist first).2 hfirst)
  have hwithin := within_tightest hown
  have hspans := spans_tightest hown
  refine ⟨fun id hid => ?_, fun id hid => ?_⟩
  · exact (mem_cubeIds_of_within hwithin).2
      ⟨(mem_cubeIds.1 (hsub hid)).1, hspans.matches_of_mem ((hlist id).2 hid)⟩
  · obtain ⟨hlt, hmatch⟩ := (mem_cubeIds_of_within hwithin).1 hid
    refine (mem_cubeIds_of_within hc).2 ⟨hlt, hspans.sub (fun x hx => ?_) hmatch⟩
    exact ((mem_cubeIds_of_within hc).1 (hsub ((hlist x).1 hx))).2

/-! ## Rule lists -/

def firstRule (rules : List PortRule) (idBits id : ℕ) : Option PortRule :=
  rules.find? fun r => decide (id ∈ cubeIds r.rule idBits)

theorem firstRule_cons_of_mem {r : PortRule} {rules : List PortRule}
    (h : id ∈ cubeIds r.rule idBits) : firstRule (r :: rules) idBits id = some r :=
  List.find?_cons_of_pos (decide_eq_true h)

theorem firstRule_cons_of_not_mem {r : PortRule} {rules : List PortRule}
    (h : id ∉ cubeIds r.rule idBits) :
    firstRule (r :: rules) idBits id = firstRule rules idBits id :=
  List.find?_cons_of_neg (by rwa [decide_eq_true_eq])

/-- Every id each group claims matches a rule of the group first. -/
def RoutesClaims (groups : List GroupClaims) (idBits : ℕ) (rules : List PortRule) : Prop :=
  ∀ g group, groups[g]? = some group → ∀ id ∈ group.ids idBits,
    ∃ r, firstRule rules idBits id = some r ∧ r.group = g

namespace OrderedProblem

variable {P : OrderedProblem} {open' taken own : Finset ℕ} {rules : List PortRule} {dead : Dead}

/-- The rules send the ids of a set to the groups that claim them. -/
def Serves (P : OrderedProblem) (open' : Finset ℕ) (rules : List PortRule) : Prop :=
  ∀ id ∈ open', ∀ g ids, P.claims[g]? = some ids → id ∈ ids →
    ∃ r, firstRule rules P.idBits id = some r ∧ r.group = g

theorem Serves.mono {open'' : Finset ℕ} (h : P.Serves open' rules) (hsub : open'' ⊆ open') :
    P.Serves open'' rules :=
  fun id hid => h id (hsub hid)

theorem mem_claimed :
    id ∈ P.claimed ↔ ∃ (g : ℕ) (ids : Finset ℕ), P.claims[g]? = some ids ∧ id ∈ ids := by
  have hfold : ∀ (l : List (Finset ℕ)) (s : Finset ℕ),
      id ∈ l.foldl (· ∪ ·) s ↔ id ∈ s ∨ ∃ ids ∈ l, id ∈ ids := by
    intro l
    induction l with
    | nil => simp
    | cons ids l ih => simp [ih, or_assoc]
  rw [claimed, hfold]
  simp only [Finset.notMem_empty, false_or, List.mem_iff_getElem?]
  exact ⟨fun ⟨ids, ⟨g, hg⟩, hid⟩ => ⟨g, ids, hg, hid⟩, fun ⟨g, ids, hg, hid⟩ => ⟨ids, ⟨g, hg⟩, hid⟩⟩

theorem left_union : P.left (taken ∪ own) = P.left taken \ own := by
  ext x
  simp only [left, Finset.mem_sdiff, Finset.mem_union, not_or, and_assoc]

theorem mem_cubes {cube : Finset ℕ} :
    cube ∈ P.cubes ↔ ∃ c : Cube, c.Within P.idBits ∧ cube = cubeIds c P.idBits := by
  simp only [cubes, List.mem_flatMap, List.mem_filterMap, List.mem_range, Nat.one_shiftLeft]
  constructor
  · rintro ⟨mask, hmask, value, _, h⟩
    split_ifs at h with hsub
    exact ⟨⟨mask, value⟩, ⟨hmask, hsub⟩, (Option.some.inj h).symm⟩
  · rintro ⟨c, hc, rfl⟩
    exact ⟨c.mask, hc.lt, c.value, hc.value_lt, if_pos hc.sub⟩

/-- A move takes the ids left in a cube, all of one group. -/
theorem mem_moves {m : Move} : m ∈ P.moves taken ↔
    ∃ cube ∈ P.cubes, (cube ∩ P.left taken).Nonempty ∧ m.1 = cube ∩ P.left taken ∧
      ∃ ids, P.claims[m.2]? = some ids ∧ m.1 ⊆ ids := by
  simp only [moves, List.mem_insertionSort, mem_appendNew, List.not_mem_nil, false_or,
    List.mem_flatMap, List.mem_filterMap, List.mem_zipIdx_iff_getElem?]
  constructor
  · rintro ⟨cube, hcube, ⟨ids, g⟩, hg, h⟩
    split_ifs at h with hm
    obtain rfl := Option.some.inj h
    exact ⟨cube, hcube, hm.1, rfl, ids, hg, hm.2⟩
  · rintro ⟨cube, hcube, hne, hm, ids, hids, hsub⟩
    refine ⟨cube, hcube, (ids, m.2), hids, ?_⟩
    rw [if_pos ⟨hne, hm ▸ hsub⟩, ← hm]

/-! ## A list that serves -/

theorem Serves.openGroups_le (h : P.Serves (P.left taken) rules) :
    P.openGroups taken ≤ rules.length := by
  let isOpen : Finset ℕ × ℕ → Bool := fun p => decide (p.1 ∩ P.left taken).Nonempty
  have hcount : P.openGroups taken = ((P.claims.zipIdx.filter isOpen).map Prod.snd).length := by
    rw [List.length_map, ← List.countP_eq_length_filter, openGroups]
    conv_lhs => rw [← List.zipIdx_map_fst 0 P.claims]
    rw [List.countP_map]
    rfl
  have hrules : rules.length = (rules.map PortRule.group).length := List.length_map _ |>.symm
  rw [hcount, hrules]
  refine (List.subperm_of_subset ?_ fun g hg => ?_).length_le
  · refine List.Nodup.sublist (List.filter_sublist.map _) ?_
    rw [List.zipIdx_map_snd]
    exact List.nodup_range'
  · obtain ⟨⟨ids, g⟩, hp, rfl⟩ := List.mem_map.1 hg
    obtain ⟨hp, hopen⟩ := List.mem_filter.1 hp
    obtain ⟨id, hid⟩ := of_decide_eq_true hopen
    obtain ⟨hids, hleft⟩ := Finset.mem_inter.1 hid
    obtain ⟨r, hr, hgroup⟩ := h id hleft g ids (List.mem_zipIdx_iff_getElem?.1 hp) hids
    exact List.mem_map.2 ⟨r, List.mem_of_find?_eq_some hr, hgroup⟩

/-- **A list that serves what is left begins with a move**: without the first rule that matches an
id left, it serves the ids left after the move. -/
theorem exists_move (h : P.Serves (P.left taken) rules) (hne : (P.left taken).Nonempty) :
    ∃ m ∈ P.moves taken, ∃ rest : List PortRule, rest.length + 1 = rules.length ∧
      P.Serves (P.left taken \ m.1) rest := by
  obtain ⟨first, hfirst⟩ := hne
  obtain ⟨g, ids, hg, hid⟩ := mem_claimed.1 (Finset.mem_sdiff.1 hfirst).1
  obtain ⟨r₀, hr₀, _⟩ := h first hfirst g ids hg hid
  have hsome : (rules.find? fun r =>
      decide (∃ id ∈ P.left taken, id ∈ cubeIds r.rule P.idBits)).isSome := by
    rw [List.find?_isSome]
    have hmem := List.find?_some hr₀
    exact ⟨r₀, List.mem_of_find?_eq_some hr₀, decide_eq_true ⟨first, hfirst, by simpa using hmem⟩⟩
  obtain ⟨r, hr⟩ := Option.isSome_iff_exists.1 hsome
  obtain ⟨hmeets, A, B, rfl, hA⟩ := List.find?_eq_some_iff_append.1 hr
  obtain ⟨id, hid, hmatch⟩ := of_decide_eq_true hmeets
  have hskip : ∀ x ∈ P.left taken, ∀ l, firstRule (A ++ l) P.idBits x = firstRule l P.idBits x := by
    intro x hx l
    have hnone : A.find? (fun r => decide (x ∈ cubeIds r.rule P.idBits)) = none := by
      rw [List.find?_eq_none]
      intro a ha hax
      have := hA a ha
      rw [Bool.not_eq_true', decide_eq_false_iff_not] at this
      exact this ⟨x, hx, of_decide_eq_true hax⟩
    rw [firstRule, List.find?_append, hnone, Option.none_or]
    rfl
  -- the ids left that `r` matches are all of its group
  have hgroup : ∀ x ∈ cubeIds r.rule P.idBits ∩ P.left taken, ∀ g ids, P.claims[g]? = some ids →
      x ∈ ids → r.group = g := by
    intro x hx g ids hg hxg
    obtain ⟨hxr, hx⟩ := Finset.mem_inter.1 hx
    obtain ⟨r', hr', hgr⟩ := h x hx g ids hg hxg
    rw [hskip x hx, firstRule_cons_of_mem hxr] at hr'
    rwa [Option.some.inj hr']
  obtain ⟨c, hc, hcube⟩ := exists_within_cubeIds hmatch
  obtain ⟨g, ids, hg, hidg⟩ := mem_claimed.1 (Finset.mem_sdiff.1 hid).1
  have hidr : id ∈ cubeIds r.rule P.idBits ∩ P.left taken := Finset.mem_inter.2 ⟨hmatch, hid⟩
  refine ⟨(cubeIds r.rule P.idBits ∩ P.left taken, r.group), mem_moves.2 ⟨_, mem_cubes.2
    ⟨c, hc, hcube⟩, ⟨id, hidr⟩, rfl, ids, ?_, fun x hx => ?_⟩, A ++ B, ?_,
    fun x hx g ids hg hxg => ?_⟩
  · rw [hgroup id hidr g ids hg hidg, hg]
  · obtain ⟨g', ids', hg', hxg'⟩ :=
      mem_claimed.1 (Finset.mem_sdiff.1 (Finset.mem_inter.1 hx).2).1
    have heq : g' = g := (hgroup x hx g' ids' hg' hxg').symm.trans (hgroup id hidr g ids hg hidg)
    rw [heq, hg, Option.some.injEq] at hg'
    rwa [hg']
  · simp only [List.length_append, List.length_cons]
    omega
  · obtain ⟨hx, hxr⟩ := Finset.mem_sdiff.1 hx
    obtain ⟨r', hr', hgr⟩ := h x hx g ids hg hxg
    have hxr : x ∉ cubeIds r.rule P.idBits := fun hm => hxr (Finset.mem_inter.2 ⟨hm, hx⟩)
    rw [hskip x hx, firstRule_cons_of_not_mem hxr, ← hskip x hx] at hr'
    exact ⟨r', hr', hgr⟩

/-! ## What the search finds -/

theorem openGroups_eq_zero_iff : P.openGroups taken = 0 ↔ P.left taken = ∅ := by
  rw [openGroups, List.countP_eq_zero]
  constructor
  · intro h
    refine Finset.eq_empty_of_forall_notMem fun id hid => ?_
    obtain ⟨g, ids, hg, hidg⟩ := mem_claimed.1 (Finset.mem_sdiff.1 hid).1
    exact h ids (List.mem_of_getElem? hg)
      (decide_eq_true ⟨id, Finset.mem_inter.2 ⟨hidg, hid⟩⟩)
  · intro h ids _
    simp [h]

theorem attempt_undoes (next : Finset ℕ → List PortRule → Dead → Outcome (List PortRule) Dead)
    (m : Move) (h : ∀ rules, Undoes (next m.1) rules) (rules : List PortRule) :
    Undoes (P.attempt next m) rules := by
  intro k hk
  rw [attempt] at hk ⊢
  simp only at hk ⊢
  split_ifs at hk ⊢ with h₁ h₂
  · rfl
  · show (next _ _ _).state.dropLast = rules
    rw [h _ k.1 (Bool.not_eq_true _ ▸ h₂), List.dropLast_concat]

theorem search_undoes (n : ℕ) (taken : Finset ℕ) (rules : List PortRule) :
    Undoes (P.search n taken) rules := by
  induction n generalizing taken rules with
  | zero => exact fun k _ => rfl
  | succ n ih =>
    intro k hk
    rw [search] at hk ⊢
    split_ifs at hk ⊢ with h₁ h₂
    · rfl
    · simp only at hk ⊢
      split_ifs at hk ⊢ with h₃
      have hundoes : ∀ m ∈ P.moves taken,
          Undoes (P.attempt (fun own => P.search n (taken ∪ own)) m) rules :=
        fun m _ => attempt_undoes (fun own => P.search n (taken ∪ own)) m (fun r => ih _ r) rules
      exact Undoes.tryEach hundoes _ (Bool.not_eq_true _ ▸ h₃)

theorem search_attempt_undoes (n : ℕ) (taken : Finset ℕ) (rules : List PortRule) (m : Move) :
    Undoes (P.attempt (fun own => P.search n (taken ∪ own)) m) rules :=
  attempt_undoes (fun own => P.search n (taken ∪ own)) m (fun r => search_undoes n _ r) rules

/-- **What the search finds serves what was left**, if no id is claimed twice. -/
theorem search_serves (hdisj : P.claims.Pairwise Disjoint) {n : ℕ}
    (h : (P.search n taken rules dead).found = true) :
    ∃ new : List PortRule, (P.search n taken rules dead).state = rules ++ new ∧ new.length ≤ n ∧
      P.Serves (P.left taken) new ∧ (P.left taken = ∅ → new = []) := by
  have hempty : ∀ {taken : Finset ℕ}, P.openGroups taken = 0 → P.Serves (P.left taken) [] := by
    intro taken h id hid
    rw [openGroups_eq_zero_iff.1 h] at hid
    cases hid
  induction n generalizing taken rules dead with
  | zero =>
    exact ⟨[], (List.append_nil rules).symm, le_rfl, hempty (of_decide_eq_true h), fun _ => rfl⟩
  | succ n ih =>
    rw [search] at h ⊢
    split_ifs at h ⊢ with hdone hcut
    · exact ⟨[], (List.append_nil rules).symm, Nat.zero_le _, hempty hdone, fun _ => rfl⟩
    · simp only at h ⊢
      split_ifs at h ⊢ with hfound
      obtain ⟨m, hm, k, hk, heq⟩ :=
        tryEach_found (fun m _ => search_attempt_undoes n taken rules m) hfound
      rw [heq]
      rw [attempt] at hk ⊢
      simp only at hk ⊢
      split_ifs at hk ⊢ with hdominated hnext
      obtain ⟨new, hstate, hlen, hserves, -⟩ := ih hnext
      refine ⟨⟨tightest P.idBits m.1, m.2⟩ :: new, ?_, Nat.succ_le_succ hlen, ?_, fun hnone => ?_⟩
      · show (P.search n _ _ _).state = _
        rw [hstate, List.append_assoc, List.singleton_append]
      · obtain ⟨cube, hcube, hne, hown, ids, hids, hsub⟩ := mem_moves.1 hm
        obtain ⟨c, hc, rfl⟩ := mem_cubes.1 hcube
        have hin_out : m.1 ⊆ _ ∧ _ :=
          subset_cubeIds_tightest (hown ▸ hne) (hown ▸ Finset.inter_subset_left) hc rfl
        obtain ⟨hin, hout⟩ := hin_out
        intro id hid g ids' hg hidg
        by_cases hidm : id ∈ m.1
        · refine ⟨_, firstRule_cons_of_mem (hin hidm), ?_⟩
          show m.2 = g
          by_contra hgm
          obtain ⟨hlt, hgetm⟩ := List.getElem?_eq_some_iff.1 hids
          obtain ⟨hlt', hgetg⟩ := List.getElem?_eq_some_iff.1 hg
          have hdis : Disjoint ids ids' := by
            rcases lt_or_gt_of_ne hgm with hlt'' | hlt''
            · rw [← hgetm, ← hgetg]
              exact List.pairwise_iff_getElem.1 hdisj _ _ hlt hlt' hlt''
            · rw [← hgetm, ← hgetg]
              exact (List.pairwise_iff_getElem.1 hdisj _ _ hlt' hlt hlt'').symm
          exact Finset.disjoint_left.1 hdis (hsub hidm) hidg
        · have hnot : id ∉ cubeIds (tightest P.idBits m.1) P.idBits := fun hmem =>
            hidm (hown ▸ Finset.mem_inter.2 ⟨hout hmem, hid⟩)
          have hid' : id ∈ P.left (taken ∪ m.1) := by
            rw [left_union]
            exact Finset.mem_sdiff.2 ⟨hid, hidm⟩
          obtain ⟨r, hr, hgr⟩ := hserves id hid' g ids' hg hidg
          exact ⟨r, (firstRule_cons_of_not_mem hnot).trans hr, hgr⟩
      · exact absurd (openGroups_eq_zero_iff.2 hnone) hdone

/-! ## What the search shows -/

/-- No list of at most `n` rules serves what is left. -/
def Unserved (P : OrderedProblem) (taken : Finset ℕ) (n : ℕ) : Prop :=
  ∀ rules : List PortRule, rules.length ≤ n → ¬P.Serves (P.left taken) rules

def DeadOk (P : OrderedProblem) (dead : Dead) : Prop := ∀ p ∈ dead, P.Unserved p.1 p.2

/-- **A search that fails has shown that no list serves.** -/
theorem search_complete {n : ℕ} (hdead : P.DeadOk dead)
    (h : (P.search n taken rules dead).found = false) :
    P.Unserved taken n ∧ P.DeadOk (P.search n taken rules dead).spent := by
  induction n generalizing taken rules dead with
  | zero =>
    refine ⟨fun rs hlen hserves => ?_, hdead⟩
    have hle := hserves.openGroups_le
    exact of_decide_eq_false h (by omega)
  | succ n ih =>
    rw [search] at h ⊢
    split_ifs at h ⊢ with hdone hcut
    · refine ⟨fun rs hlen hserves => ?_, hdead⟩
      rcases hcut with hmany | hmem
      · have hle := hserves.openGroups_le
        omega
      · exact hdead _ hmem rs hlen hserves
    · simp only at h ⊢
      split_ifs at h ⊢ with hfound
      have hall := tryEach_failed (W := fun _ => True)
        (N := fun k : Dead × List Move => P.DeadOk k.1 ∧
          ∀ t ∈ k.2, P.Unserved (taken ∪ t.1) n)
        (H := fun m : Move => P.Unserved (taken ∪ m.1) n)
        (fun m _ => search_attempt_undoes n taken rules m)
        (fun _ _ _ _ => trivial) ?_ (k := (dead, []))
        ⟨hdead, fun t ht => absurd ht List.not_mem_nil⟩ (Bool.not_eq_true _ ▸ hfound) trivial
      · have hunserved : P.Unserved taken (n + 1) := by
          intro rs hlen hserves
          have hne : (P.left taken).Nonempty := Finset.nonempty_iff_ne_empty.2 fun he =>
            hdone (openGroups_eq_zero_iff.2 he)
          obtain ⟨m, hm, rest, hrest, hserves⟩ := exists_move hserves hne
          refine hall.1 m hm rest (by omega) ?_
          rwa [left_union]
        refine ⟨hunserved, fun p hp => ?_⟩
        rcases List.mem_cons.1 hp with rfl | hp
        · exact hunserved
        · exact hall.2.1 p hp
      · intro m _ k hk hfail _
        rw [attempt] at hfail ⊢
        simp only at hfail ⊢
        split_ifs at hfail ⊢ with hdominated hnext
        · -- a move that takes more of the group was hopeless already
          refine ⟨fun rs hlen hserves => ?_, hk⟩
          obtain ⟨t, ht, hsame⟩ := List.any_eq_true.1 hdominated
          have hsub : m.1 ⊆ t.1 := of_decide_eq_true (Bool.and_eq_true .. ▸ hsame).2
          refine hk.2 t ht rs hlen (hserves.mono ?_)
          rw [left_union, left_union]
          exact Finset.sdiff_subset_sdiff le_rfl hsub
        · obtain ⟨hbad, hok⟩ := ih hk.1 (Bool.not_eq_true _ ▸ hnext)
          refine ⟨hbad, hok, fun t ht => ?_⟩
          rcases List.mem_cons.1 ht with rfl | ht
          exacts [hbad, hk.2 t ht]

theorem firstLength_spec (hdisj : P.claims.Pairwise Disjoint) {lo count : ℕ} (hlo : 0 < lo)
    (hdead : P.DeadOk dead) (hbelow : P.left taken = ∅ ∨ P.Unserved taken (lo - 1)) :
    (∀ rs, P.firstLength taken (List.range' lo count) [] dead = some rs →
      P.Serves (P.left taken) rs ∧ rs.length < lo + count ∧
        ∀ rs', P.Serves (P.left taken) rs' → rs.length ≤ rs'.length) ∧
      (P.firstLength taken (List.range' lo count) [] dead = none →
        P.left taken = ∅ ∧ count = 0 ∨ P.Unserved taken (lo + count - 1)) := by
  induction count generalizing lo dead with
  | zero =>
    simp only [List.range'_zero, firstLength]
    refine ⟨fun rs h => (Option.some_ne_none rs h.symm).elim, fun _ => ?_⟩
    exact hbelow.imp (fun h => ⟨h, trivial⟩) fun h => h
  | succ count ih =>
    rw [List.range'_succ, firstLength]
    split_ifs with hfound
    · refine ⟨fun rs h => ?_, fun h => by cases h⟩
      obtain ⟨new, hstate, hlen, hserves, hnil⟩ := search_serves hdisj hfound
      rw [Option.some.injEq, hstate, List.nil_append] at h
      subst h
      refine ⟨hserves, by omega, fun rs' hrs' => ?_⟩
      rcases hbelow with hempty | hunserved
      · rw [hnil hempty]
        exact Nat.zero_le _
      · by_contra hlt
        exact hunserved rs' (by omega) hrs'
    · have hfail := Bool.not_eq_true _ ▸ hfound
      obtain ⟨hunserved, hok⟩ := search_complete hdead hfail
      rw [search_undoes lo taken [] dead hfail]
      obtain ⟨hsome, hnone⟩ := ih (Nat.succ_pos lo) hok (.inr hunserved)
      refine ⟨fun rs h => ?_, fun h => ?_⟩
      · obtain ⟨h₁, h₂, h₃⟩ := hsome rs h
        exact ⟨h₁, by omega, h₃⟩
      · rcases hnone h with ⟨hempty, _⟩ | h
        · -- with nothing left, any length would do
          refine absurd (hunserved [] (Nat.zero_le _)) (not_not.2 fun id hid => ?_)
          rw [hempty] at hid
          cases hid
        · refine .inr ?_
          rwa [show lo + (count + 1) - 1 = lo + 1 + count - 1 by omega]

theorem serves_claimed_iff {groups : List GroupClaims} {idBits : ℕ} :
    Serves ⟨idBits, groups⟩ (claimed ⟨idBits, groups⟩) rules ↔
      RoutesClaims groups idBits rules := by
  have hget : ∀ g, (claims ⟨idBits, groups⟩)[g]? =
      groups[g]?.map fun group : GroupClaims => group.ids idBits := fun g => List.getElem?_map
  constructor
  · intro h g group hg id hid
    have hids : (claims ⟨idBits, groups⟩)[g]? = some (group.ids idBits) := by
      rw [hget, hg, Option.map_some]
    exact h id (mem_claimed.2 ⟨g, _, hids, hid⟩) g _ hids hid
  · intro h id _ g ids hg hid
    rw [hget, Option.map_eq_some_iff] at hg
    obtain ⟨group, hgroup, rfl⟩ := hg
    exact h g group hgroup id hid

end OrderedProblem

/-! ## The rules of a port -/

open OrderedProblem in
/-- **The rules are as few as any list** of rules in which every id claimed matches a rule of its
group first, and there are none only if no such list fits the budget. -/
theorem orderedRules_optimal {groups : List GroupClaims} {existing : List Cube} {idBits budget : ℕ}
    (hbits : idBits ≤ 6) (hdisj : (groups.map fun g => g.ids idBits).Pairwise Disjoint)
    (hexisting : ∀ c ∈ existing, ∀ g ∈ groups, Disjoint (cubeIds c idBits) (g.ids idBits)) :
    (∀ rules, orderedRules groups existing idBits budget = some rules →
      RoutesClaims groups idBits rules ∧ rules.length ≤ budget ∧
        ∀ rules', RoutesClaims groups idBits rules' → rules.length ≤ rules'.length) ∧
      ((∃ g ∈ groups, (g.ids idBits).Nonempty) →
        (orderedRules groups existing idBits budget = none ↔
          ¬∃ rules, RoutesClaims groups idBits rules ∧ rules.length ≤ budget)) := by
  have htaken : ∀ (l : List Cube) (s : Finset ℕ) (id : ℕ),
      id ∈ l.foldl (fun ids c => ids ∪ cubeIds c idBits) s ↔
        id ∈ s ∨ ∃ c ∈ l, id ∈ cubeIds c idBits := by
    intro l
    induction l with
    | nil => simp
    | cons c l ih =>
      intro s id
      simp [ih, or_assoc]
  have hmem : ∀ id, id ∈ claimed ⟨idBits, groups⟩ ↔ ∃ g ∈ groups, id ∈ g.ids idBits := by
    intro id
    rw [mem_claimed]
    constructor
    · rintro ⟨g, ids, hg, hid⟩
      obtain ⟨group, hgroup, rfl⟩ := List.mem_map.mp (List.mem_of_getElem? hg)
      exact ⟨group, hgroup, hid⟩
    · rintro ⟨group, hgroup, hid⟩
      obtain ⟨g, hg⟩ := List.mem_iff_getElem?.mp
        (List.mem_map_of_mem hgroup : group.ids idBits ∈ groups.map fun g => g.ids idBits)
      exact ⟨g, _, hg, hid⟩
  have hfree : Disjoint (existing.foldl (fun ids c => ids ∪ cubeIds c idBits) ∅)
      (claimed ⟨idBits, groups⟩) := by
    rw [Finset.disjoint_left]
    intro id hid hclaimed
    obtain ⟨g, hg, hidg⟩ := (hmem id).mp hclaimed
    rcases (htaken existing ∅ id).mp hid with hid | ⟨c, hc, hid⟩
    · cases hid
    · exact Finset.disjoint_left.mp (hexisting c hc g hg) hid hidg
  have hleft : left ⟨idBits, groups⟩ (existing.foldl (fun ids c => ids ∪ cubeIds c idBits) ∅) =
      claimed ⟨idBits, groups⟩ := Finset.sdiff_eq_self_of_disjoint hfree.symm
  have hrun : orderedRules groups existing idBits budget =
      firstLength ⟨idBits, groups⟩ (existing.foldl (fun ids c => ids ∪ cubeIds c idBits) ∅)
        (List.range' 1 budget) [] [] := by
    rw [orderedRules, if_neg (not_lt.mpr hbits),
      if_neg (Finset.not_nonempty_iff_eq_empty.mpr (Finset.disjoint_iff_inter_eq_empty.mp hfree))]
  have hnil : claimed ⟨idBits, groups⟩ = ∅ ∨ Unserved ⟨idBits, groups⟩
      (existing.foldl (fun ids c => ids ∪ cubeIds c idBits) ∅) (1 - 1) := by
    rcases Finset.eq_empty_or_nonempty (claimed ⟨idBits, groups⟩) with hempty | hne
    · exact .inl hempty
    · refine .inr fun rules hlen hserves => ?_
      rw [List.length_eq_zero_iff.mp (Nat.le_zero.mp hlen), hleft] at hserves
      obtain ⟨id, hid⟩ := hne
      obtain ⟨g, ids, hg, hidg⟩ := mem_claimed.mp hid
      obtain ⟨r, hr, _⟩ := hserves id hid g ids hg hidg
      cases hr
  have hdead : DeadOk ⟨idBits, groups⟩ [] := fun p hp => absurd hp List.not_mem_nil
  have hspec := @firstLength_spec ⟨idBits, groups⟩ _ _ hdisj 1 budget Nat.one_pos hdead
    (hleft.symm ▸ hnil)
  rw [hleft] at hspec
  obtain ⟨hsome, hnone⟩ := hspec
  rw [hrun]
  constructor
  · intro rules h
    obtain ⟨hserves, hlen, hmin⟩ := hsome rules h
    exact ⟨serves_claimed_iff.mp hserves, by omega, fun rules' hrules' =>
      hmin rules' (serves_claimed_iff.mpr hrules')⟩
  · rintro ⟨g, hg, id, hid⟩
    have hne : claimed ⟨idBits, groups⟩ ≠ ∅ :=
      Finset.ne_empty_of_mem ((hmem id).mpr ⟨g, hg, hid⟩)
    constructor
    · rintro h ⟨rules, hrules, hlen⟩
      rcases hnone h with ⟨hempty, _⟩ | hunserved
      · exact hne hempty
      · refine hunserved rules (by omega) ?_
        rw [hleft]
        exact serves_claimed_iff.mpr hrules
    · intro h
      rw [Option.eq_none_iff_forall_ne_some]
      intro rules hrules
      obtain ⟨hserves, hlen, _⟩ := hsome rules hrules
      exact h ⟨rules, serves_claimed_iff.mp hserves, by omega⟩

/-- Ids 0 and 3 around id 1, and id 2 taken before: the rule for id 1 goes first. -/
theorem orderedRules_optimal_around :
    (∀ rules, orderedRules [⟨[], [0, 3], false⟩, ⟨[⟨3, 1⟩], [], false⟩] [⟨3, 2⟩] 2 2 = some rules →
      RoutesClaims [⟨[], [0, 3], false⟩, ⟨[⟨3, 1⟩], [], false⟩] 2 rules ∧ rules.length ≤ 2 ∧
        ∀ rules', RoutesClaims [⟨[], [0, 3], false⟩, ⟨[⟨3, 1⟩], [], false⟩] 2 rules' →
          rules.length ≤ rules'.length) ∧
      (orderedRules [⟨[], [0, 3], false⟩, ⟨[⟨3, 1⟩], [], false⟩] [⟨3, 2⟩] 2 2 = none ↔
        ¬∃ rules, RoutesClaims [⟨[], [0, 3], false⟩, ⟨[⟨3, 1⟩], [], false⟩] 2 rules ∧
          rules.length ≤ 2) := by
  have h := @orderedRules_optimal [⟨[], [0, 3], false⟩, ⟨[⟨3, 1⟩], [], false⟩] [⟨3, 2⟩] 2 2
    (by decide) (by decide) (by decide)
  exact ⟨h.1, h.2 ⟨_, List.mem_cons_self, by decide⟩⟩

example : orderedRules [⟨[], [0, 3], false⟩, ⟨[⟨3, 1⟩], [], false⟩] [⟨3, 2⟩] 2 2 =
    some [⟨⟨3, 1⟩, 1⟩, ⟨⟨0, 0⟩, 0⟩] := by
  decide

end MlirAie.Route
