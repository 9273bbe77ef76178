import MlirAie.Lib.Places
import MlirAie.Route.RulesSound

/-!
# The order of the groups

The groups of a slave port are checked in one order and emitted in another, and the flows of a group
are taken in different orders too. The rules are the same ones: a cover depends on the ids alone,
and the search for rules in first-match order takes claimed ids of one group each time, whatever place
the group has.

* `PortRule.rename`: the rule of a group in another place;
* `orderedRules_rename`, `apartRules_perm`: the rules of groups in other places;
* **`portRules_perm`**: the rules of some groups, in whatever order.
-/

namespace MlirAie.Route

open Lib

variable {idBits slots : ℕ}

/-! ## Covers -/

section Cover

variable {matchIds matchIds' : List ℕ} {avoid avoid' : List Cube}

/-- The cube around ids does not depend on their order. -/
theorem tighten_congr {ids ids' : List ℕ} (h : ∀ id, id ∈ ids ↔ id ∈ ids') (hne : ids ≠ []) :
    tighten idBits ids = tighten idBits ids' := by
  have hagree : ∀ {l : List ℕ} {i : ℕ}, l ≠ [] →
      ((∀ id ∈ l, id.testBit i = (l.headD 0).testBit i) ↔ ∃ b, ∀ id ∈ l, id.testBit i = b) := by
    intro l i hl
    obtain ⟨x, l, rfl⟩ := List.exists_cons_of_ne_nil hl
    refine ⟨fun h => ⟨_, h⟩, ?_⟩
    rintro ⟨b, hb⟩ id hid
    rw [hb id hid, List.headD_cons, hb x List.mem_cons_self]
  have hne' : ids' ≠ [] := by
    obtain ⟨x, hx⟩ := List.exists_mem_of_ne_nil ids hne
    exact List.ne_nil_of_mem ((h x).1 hx)
  have hmask : commonBits idBits ids = commonBits idBits ids' := by
    refine Nat.eq_of_testBit_eq fun i => ?_
    rw [Bool.eq_iff_iff, testBit_commonBits, testBit_commonBits, hagree hne, hagree hne']
    simp only [h]
  rw [tighten, tighten, hmask, Cube.mk.injEq]
  refine ⟨rfl, Nat.eq_of_testBit_eq fun i => ?_⟩
  rw [Nat.testBit_and, Nat.testBit_and]
  cases hi : (commonBits idBits ids').testBit i with
  | false => rw [Bool.and_false, Bool.and_false]
  | true =>
    have hall := ((testBit_commonBits ids' i).1 hi).2
    have hhead : ids.headD 0 ∈ ids' := by
      obtain ⟨x, l, rfl⟩ := List.exists_cons_of_ne_nil hne
      exact (h x).1 List.mem_cons_self
    rw [hall _ hhead]

theorem tighten_single {ids : List ℕ} {id : ℕ} (hid : id < 2 ^ idBits) (hne : ids ≠ [])
    (h : ∀ x ∈ ids, x = id) : tighten idBits ids = ⟨2 ^ idBits - 1, id⟩ := by
  have hmem : ∀ x, x ∈ ids ↔ x ∈ [id] := by
    intro x
    rw [List.mem_singleton]
    refine ⟨h x, ?_⟩
    rintro rfl
    obtain ⟨y, hy⟩ := List.exists_mem_of_ne_nil ids hne
    exact h y hy ▸ hy
  have hmask : commonBits idBits [id] = 2 ^ idBits - 1 := by
    refine Nat.eq_of_testBit_eq fun i => ?_
    rw [Bool.eq_iff_iff, testBit_commonBits, Nat.testBit_two_pow_sub_one, decide_eq_true_eq]
    simp
  rw [tighten_congr hmem hne, tighten, hmask, List.headD_cons, Nat.and_two_pow_sub_one_eq_mod,
    Nat.mod_eq_of_lt hid]

theorem hitsAvoid_congr (h : ∀ c, c ∈ avoid ↔ c ∈ avoid') : hitsAvoid avoid = hitsAvoid avoid' := by
  funext c
  rw [hitsAvoid, hitsAvoid, Bool.eq_iff_iff, List.any_eq_true, List.any_eq_true]
  simp only [h]

theorem matchMask_congr (h : ∀ id, id ∈ matchIds ↔ id ∈ matchIds') :
    matchMask matchIds idBits = matchMask matchIds' idBits := by
  rw [matchMask, matchMask]
  simp only [h]

theorem length_matchMask_le : (matchMask matchIds idBits).length ≤ matchIds.length := by
  refine (List.subperm_of_subset (List.nodup_range.filter _) fun id hid => ?_).length_le
  exact of_decide_eq_true (List.mem_filter.1 hid).2

theorem chosenCubes_congr (idBits : ℕ) (hids : ∀ id, id ∈ matchIds ↔ id ∈ matchIds')
    (havoid : ∀ c, c ∈ avoid ↔ c ∈ avoid') :
    chosenCubes matchIds avoid idBits = chosenCubes matchIds' avoid' idBits ∨
      chosenCubes matchIds avoid idBits = (matchIds.map fun id => ⟨2 ^ idBits - 1, id⟩) ∧
        chosenCubes matchIds' avoid' idBits = matchIds'.map fun id => ⟨2 ^ idBits - 1, id⟩ := by
  let sel : List ℕ → ℕ → List CoverCube := fun ids n =>
    (bnbMinCover (primes matchIds avoid idBits) (1 <<< idBits) (matchMask matchIds idBits) []
      ⟨n, []⟩).sel
  have hprimes : primes matchIds' avoid' idBits = primes matchIds avoid idBits := by
    simp only [primes, primeAt, hitsAvoid_congr havoid, matchMask_congr hids]
  have hdef : chosenCubes matchIds avoid idBits =
      if (sel matchIds (matchIds.length + 1)).map CoverCube.cube = [] then
        matchIds.map fun id => ⟨2 ^ idBits - 1, id⟩
      else (sel matchIds (matchIds.length + 1)).map CoverCube.cube := by
    rw [← Nat.one_shiftLeft]
    rfl
  have hdef' : chosenCubes matchIds' avoid' idBits =
      if (sel matchIds (matchIds'.length + 1)).map CoverCube.cube = [] then
        matchIds'.map fun id => ⟨2 ^ idBits - 1, id⟩
      else (sel matchIds (matchIds'.length + 1)).map CoverCube.cube := by
    rw [← Nat.one_shiftLeft]
    simp only [sel, ← hprimes, matchMask_congr hids]
    rfl
  have hlen : (matchMask matchIds idBits).length ≤ matchIds'.length := by
    rw [matchMask_congr hids]
    exact length_matchMask_le
  have hfuel : (matchMask matchIds idBits).length ≤ 1 <<< idBits :=
    (List.length_filter_le _ _).trans_eq List.length_range
  have hsel : sel matchIds (matchIds.length + 1) = sel matchIds (matchIds'.length + 1) :=
    minCover_start (mostConstrained_mem _) hfuel (Nat.lt_succ_of_le length_matchMask_le)
      (Nat.lt_succ_of_le hlen)
  rw [hdef, hdef', hsel]
  split_ifs
  · exact .inr ⟨rfl, rfl⟩
  · exact .inl rfl

theorem nodup_computeSubcubeCover (hids : ∀ id ∈ matchIds, id < 2 ^ idBits) :
    (computeSubcubeCover matchIds avoid idBits).Nodup := by
  have hwithin := (chosenCubes_covers avoid hids).1
  -- the ids that took a cube lie in no cube before it
  have hle : ∀ {k k' : ℕ}, assigned (chosenCubes matchIds avoid idBits) matchIds k ≠ [] →
      assigned (chosenCubes matchIds avoid idBits) matchIds k' ≠ [] →
      tighten idBits (assigned (chosenCubes matchIds avoid idBits) matchIds k) =
        tighten idBits (assigned (chosenCubes matchIds avoid idBits) matchIds k') → k' ≤ k := by
    intro k k' hne hne' heq
    have hlt : k < (chosenCubes matchIds avoid idBits).length := by
      obtain ⟨id, hid⟩ := List.exists_mem_of_ne_nil _ hne
      exact (List.findIdx?_eq_some_iff_getElem.1
        (of_decide_eq_true (List.mem_filter.1 hid).2)).1
    obtain ⟨id, hid⟩ := List.exists_mem_of_ne_nil _ hne'
    have hspans : (tighten idBits _).Spans idBits _ := spans_tighten hne'
    have hmatch := hspans.matches_of_mem hid
    rw [← heq] at hmatch
    have hin : ((chosenCubes matchIds avoid idBits).get ⟨k, hlt⟩).Matches idBits id :=
      (spans_tighten hne).sub (fun id hid => matches_of_mem_assigned hwithin hlt hid) hmatch
    obtain ⟨-, hfirst⟩ := List.mem_filter.1 hid
    obtain ⟨hlt', -, hbefore⟩ :=
      List.findIdx?_eq_some_iff_getElem.1 (of_decide_eq_true hfirst)
    by_contra hk
    refine hbefore k (not_le.1 hk) (decide_eq_true ?_)
    exact ((hwithin _ (List.get_mem _ ⟨k, hlt⟩)).matches_iff).1 hin
  rw [computeSubcubeCover, List.filterMap_map]
  refine List.Nodup.filterMap (fun k k' r hr hr' => ?_) List.nodup_range
  simp only [Function.comp_apply, Option.mem_def] at hr hr'
  split_ifs at hr hr' with hne hne'
  have heq := (Option.some.inj hr).trans (Option.some.inj hr').symm
  exact le_antisymm (hle hne' hne heq.symm) (hle hne hne' heq)

/-- **A cover of the same ids which avoids the same cubes** has the same rules. -/
theorem computeSubcubeCover_perm (hlt : ∀ id ∈ matchIds, id < 2 ^ idBits)
    (hids : ∀ id, id ∈ matchIds ↔ id ∈ matchIds') (havoid : ∀ c, c ∈ avoid ↔ c ∈ avoid') :
    (computeSubcubeCover matchIds avoid idBits).Perm
      (computeSubcubeCover matchIds' avoid' idBits) := by
  have hlt' : ∀ id ∈ matchIds', id < 2 ^ idBits := fun id hid => hlt id ((hids id).2 hid)
  refine (List.perm_ext_iff_of_nodup (nodup_computeSubcubeCover hlt)
    (nodup_computeSubcubeCover hlt')).2 fun r => ?_
  have hassigned : ∀ chosen k id, id ∈ assigned chosen matchIds k ↔
      id ∈ assigned chosen matchIds' k := by
    intro chosen k id
    simp only [assigned, List.mem_filter, hids]
  rcases chosenCubes_congr idBits hids havoid with heq | ⟨heq, heq'⟩
  · rw [mem_computeSubcubeCover, mem_computeSubcubeCover, heq]
    refine exists_congr fun k => and_congr_right fun _ => ?_
    have hnil : assigned (chosenCubes matchIds' avoid' idBits) matchIds k ≠ [] ↔
        assigned (chosenCubes matchIds' avoid' idBits) matchIds' k ≠ [] := by
      simp only [ne_eq, List.eq_nil_iff_forall_not_mem, hassigned]
    rw [hnil]
    refine and_congr_right fun hne => ?_
    rw [tighten_congr (hassigned _ k) (hnil.2 hne)]
  · -- one rule for each id
    have hsingle : ∀ {ids : List ℕ} {cubes : List Cube}, (∀ id ∈ ids, id < 2 ^ idBits) →
        chosenCubes ids cubes idBits = (ids.map fun id => ⟨2 ^ idBits - 1, id⟩) →
        ∀ r, r ∈ computeSubcubeCover ids cubes idBits ↔ ∃ id ∈ ids, r = ⟨2 ^ idBits - 1, id⟩ := by
      intro ids cubes hlt hchosen r
      have hwithin : ∀ q ∈ chosenCubes ids cubes idBits, q.Within idBits :=
        (chosenCubes_covers cubes hlt).1
      have htook : ∀ {k id}, id ∈ assigned (chosenCubes ids cubes idBits) ids k →
          ∀ x ∈ assigned (chosenCubes ids cubes idBits) ids k, x = id := by
        intro k id hid x hx
        have hk : k < (chosenCubes ids cubes idBits).length :=
          (List.findIdx?_eq_some_iff_getElem.1
            (of_decide_eq_true (List.mem_filter.1 hid).2)).1
        have hin := matches_of_mem_assigned hwithin hk hid
        have hinx := matches_of_mem_assigned hwithin hk hx
        have hmem := List.get_mem (chosenCubes ids cubes idBits) ⟨k, hk⟩
        generalize (chosenCubes ids cubes idBits).get ⟨k, hk⟩ = q at hin hinx hmem
        rw [hchosen, List.mem_map] at hmem
        obtain ⟨y, hy, rfl⟩ := hmem
        rw [matches_single (hlt y hy) (hlt id (List.mem_filter.1 hid).1)] at hin
        rw [matches_single (hlt y hy) (hlt x (List.mem_filter.1 hx).1)] at hinx
        rw [hin, hinx]
      rw [mem_computeSubcubeCover]
      constructor
      · rintro ⟨k, -, hne, rfl⟩
        obtain ⟨id, hid⟩ := List.exists_mem_of_ne_nil _ hne
        have hmem := (List.mem_filter.1 hid).1
        exact ⟨id, hmem, tighten_single (hlt id hmem) hne (htook hid)⟩
      · rintro ⟨id, hid, rfl⟩
        obtain ⟨k, hk, hmem⟩ := exists_mem_assigned hwithin hid
          ((chosenCubes_covers cubes hlt).2.1 id hid)
        exact ⟨k, hk, List.ne_nil_of_mem hmem,
          tighten_single (hlt id hid) (List.ne_nil_of_mem hmem) (htook hmem)⟩
    rw [hsingle hlt heq, hsingle hlt' heq']
    simp only [hids]

end Cover

/-! ## Groups in other places -/

structure GroupClaims.Alike (a b : GroupClaims) : Prop where
  stated : a.stated.Perm b.stated
  derived : ∀ id, id ∈ a.derived ↔ id ∈ b.derived

namespace GroupClaims.Alike

variable {a b : GroupClaims}

theorem ids_eq (h : a.Alike b) : a.ids idBits = b.ids idBits := by
  ext id
  rw [mem_ids, mem_ids, h.derived]
  simp only [h.stated.mem_iff]

theorem mem_claims (h : a.Alike b) (c : Cube) : c ∈ a.claims idBits ↔ c ∈ b.claims idBits := by
  simp only [GroupClaims.claims, List.mem_append, List.mem_map, h.stated.mem_iff, h.derived]

theorem groupRules_perm (h : a.Alike b) (ha : a.InWidth idBits) {avoid avoid' : List Cube}
    (havoid : ∀ c, c ∈ avoid ↔ c ∈ avoid') :
    (groupRules a.stated a.derived avoid idBits).Perm
      (groupRules b.stated b.derived avoid' idBits) := by
  have hnil : a.derived = [] ↔ b.derived = [] := by
    simp only [List.eq_nil_iff_forall_not_mem, h.derived]
  rw [groupRules, groupRules]
  by_cases hempty : a.derived = []
  · rw [if_pos hempty, if_pos (hnil.1 hempty)]
    exact h.stated
  · rw [if_neg hempty, if_neg (fun h => hempty (hnil.2 h))]
    refine h.stated.append (computeSubcubeCover_perm ha.derived_lt h.derived fun c => ?_)
    rw [List.mem_append, List.mem_append, havoid, h.stated.mem_iff]

end GroupClaims.Alike

def PortRule.rename (σ : Equiv.Perm ℕ) (r : PortRule) : PortRule := ⟨r.rule, σ r.group⟩

section Places

variable {K : Type*} {keys keys' : List K} {G G' : K → GroupClaims} {σ : Equiv.Perm ℕ}
  {existing existing' : List Cube}

/-- **The groups' own rules**, with the groups in other places. -/
theorem apartRules_perm (hσ : ∀ i, keys'[σ i]? = keys[i]?) (hG : ∀ k ∈ keys, (G k).Alike (G' k))
    (hwidth : ∀ k ∈ keys, (G k).InWidth idBits) (hexisting : ∀ c, c ∈ existing ↔ c ∈ existing') :
    (apartRules (keys'.map G') existing' idBits).Perm
      ((apartRules (keys.map G) existing idBits).map (PortRule.rename σ)) := by
  have hother : ∀ g c, c ∈ otherClaims (keys.map G) idBits g ↔
      c ∈ otherClaims (keys'.map G') idBits (σ g) := by
    intro g c
    simp only [mem_otherClaims, List.getElem?_map, Option.map_eq_some_iff]
    constructor
    · rintro ⟨o, _, ⟨k, hk, rfl⟩, hne, hc⟩
      exact ⟨σ o, _, ⟨k, (hσ o).trans hk, rfl⟩, fun h => hne (σ.injective h),
        ((hG k (List.mem_of_getElem? hk)).mem_claims c).1 hc⟩
    · rintro ⟨o, _, ⟨k, hk, rfl⟩, hne, hc⟩
      have hk' : keys[σ.symm o]? = some k := by rw [← hσ, σ.apply_symm_apply, hk]
      refine ⟨σ.symm o, _, ⟨k, hk', rfl⟩, ?_,
        ((hG k (List.mem_of_getElem? hk')).mem_claims c).2 hc⟩
      rintro rfl
      exact hne (σ.apply_symm_apply o).symm
  rw [apartRules, apartRules, List.zipIdx_map, List.zipIdx_map, List.flatMap_map, List.flatMap_map,
    List.map_flatMap]
  refine ((zipIdx_perm hσ).flatMap_right _).trans ?_
  rw [List.flatMap_map]
  refine List.Perm.flatMap_left _ fun p hp => ?_
  have hk : p.1 ∈ keys := List.mem_of_getElem? (List.mem_zipIdx_iff_getElem?.1 hp)
  rw [List.map_map]
  refine List.Perm.map _ ((hG p.1 hk).groupRules_perm (hwidth p.1 hk) fun c => ?_).symm
  rw [List.mem_append, List.mem_append, hexisting, hother]
  rfl

namespace OrderedProblem

/-- Two problems with the same groups in other places. -/
def Renames (σ : Equiv.Perm ℕ) (P P' : OrderedProblem) : Prop :=
  P'.idBits = P.idBits ∧ ∀ g, P'.claims[σ g]? = P.claims[g]?

variable {P P' : OrderedProblem} {taken : Finset ℕ}

theorem Renames.claimed_eq (h : Renames σ P P') : P'.claimed = P.claimed := by
  ext id
  rw [mem_claimed, mem_claimed]
  constructor
  · rintro ⟨g, ids, hg, hid⟩
    refine ⟨σ.symm g, ids, ?_, hid⟩
    rw [← h.2, σ.apply_symm_apply, hg]
  · rintro ⟨g, ids, hg, hid⟩
    exact ⟨σ g, ids, (h.2 g).trans hg, hid⟩

theorem Renames.openGroups_eq (h : Renames σ P P') : P'.openGroups taken = P.openGroups taken := by
  have hperm : P'.claims.Perm P.claims := by
    have hzip := (zipIdx_perm h.2).map Prod.fst
    rwa [List.zipIdx_map_fst, List.map_map, show (Prod.fst ∘ fun p : Finset ℕ × ℕ =>
      (p.1, σ p.2)) = Prod.fst from rfl, List.zipIdx_map_fst] at hzip
  rw [openGroups, openGroups, left, left, h.claimed_eq]
  exact hperm.countP_eq _

theorem Renames.moves_eq (h : Renames σ P P') (hdisj : P.claims.Pairwise Disjoint) :
    P'.moves taken = (P.moves taken).map fun m => (m.1, σ m.2) := by
  have hinj : Function.Injective fun m : Move => (m.1, σ m.2) := by
    intro m m' heq
    obtain ⟨h₁, h₂⟩ := Prod.mk.inj heq
    exact Prod.ext h₁ (σ.injective h₂)
  have hcubes : P'.cubes = P.cubes := by rw [cubes, cubes, h.1]
  have hcube : ∀ cube : Finset ℕ, (P'.claims.zipIdx.filterMap fun p =>
      if (cube ∩ P.left taken).Nonempty ∧ cube ∩ P.left taken ⊆ p.1 then
        some (cube ∩ P.left taken, p.2) else none) =
      (P.claims.zipIdx.filterMap fun p =>
        if (cube ∩ P.left taken).Nonempty ∧ cube ∩ P.left taken ⊆ p.1 then
          some (cube ∩ P.left taken, p.2) else none).map fun m => (m.1, σ m.2) := by
    intro cube
    have hnodup : (P.claims.zipIdx.filterMap fun p =>
        if (cube ∩ P.left taken).Nonempty ∧ cube ∩ P.left taken ⊆ p.1 then
          some (cube ∩ P.left taken, p.2) else none).Nodup := by
      have hsnd : (P.claims.zipIdx.map Prod.snd).Nodup := by
        rw [List.zipIdx_map_snd]
        exact List.nodup_range'
      rw [List.Nodup, List.pairwise_filterMap]
      refine (List.pairwise_map.1 hsnd).imp fun hne a ha b hb heq => hne ?_
      split_ifs at ha hb
      rw [← Option.some.inj ha, ← Option.some.inj hb] at heq
      exact (Prod.mk.inj heq).2
    have hone : ∀ a ∈ (P.claims.zipIdx.filterMap fun p =>
        if (cube ∩ P.left taken).Nonempty ∧ cube ∩ P.left taken ⊆ p.1 then
          some (cube ∩ P.left taken, p.2) else none), ∀ b ∈ (P.claims.zipIdx.filterMap fun p =>
        if (cube ∩ P.left taken).Nonempty ∧ cube ∩ P.left taken ⊆ p.1 then
          some (cube ∩ P.left taken, p.2) else none), a = b := by
      intro a ha b hb
      obtain ⟨⟨ids, g⟩, hg, ha⟩ := List.mem_filterMap.1 ha
      obtain ⟨⟨ids', g'⟩, hg', hb⟩ := List.mem_filterMap.1 hb
      split_ifs at ha hb with hin hin'
      obtain rfl := Option.some.inj ha
      obtain rfl := Option.some.inj hb
      rw [List.mem_zipIdx_iff_getElem?] at hg hg'
      obtain ⟨x, hx⟩ := hin.1
      -- no two groups claim an id left
      have hsame : g = g' := by
        by_contra hne
        obtain ⟨hlt, hget⟩ := List.getElem?_eq_some_iff.1 hg
        obtain ⟨hlt', hget'⟩ := List.getElem?_eq_some_iff.1 hg'
        rcases lt_or_gt_of_ne hne with hlt'' | hlt''
        · have hdis := List.pairwise_iff_getElem.1 hdisj g g' hlt hlt' hlt''
          rw [hget, hget'] at hdis
          exact Finset.disjoint_left.1 hdis (hin.2 hx) (hin'.2 hx)
        · have hdis := List.pairwise_iff_getElem.1 hdisj g' g hlt' hlt hlt''
          rw [hget, hget'] at hdis
          exact Finset.disjoint_left.1 hdis (hin'.2 hx) (hin.2 hx)
      rw [hsame]
    refine perm_of_subsingleton (hnodup.map hinj) ?_ ?_
    · intro a ha b hb
      obtain ⟨a', ha', rfl⟩ := List.mem_map.1 ha
      obtain ⟨b', hb', rfl⟩ := List.mem_map.1 hb
      rw [hone a' ha' b' hb']
    · refine ((zipIdx_perm h.2).filterMap _).trans (List.Perm.of_eq ?_)
      rw [List.filterMap_map, List.map_filterMap]
      refine List.filterMap_congr fun p _ => ?_
      simp only [Function.comp_apply]
      split_ifs <;> rfl
  rw [moves, moves, hcubes, show P'.left taken = P.left taken by rw [left, left, h.claimed_eq]]
  simp only [hcube]
  have happend := appendNew_map hinj [] (P.cubes.flatMap fun cube =>
    P.claims.zipIdx.filterMap fun p =>
      if (cube ∩ P.left taken).Nonempty ∧ cube ∩ P.left taken ⊆ p.1 then
        some (cube ∩ P.left taken, p.2) else none)
  rw [List.map_nil] at happend
  rw [← List.map_flatMap, happend]
  exact (List.map_insertionSort (r := fun a b : Move => b.1.card ≤ a.1.card)
    (s := fun a b : Move => b.1.card ≤ a.1.card) (fun m : Move => (m.1, σ m.2)) _
    fun _ _ _ _ => Iff.rfl).symm

theorem Renames.search_eq (h : Renames σ P P') (hdisj : P.claims.Pairwise Disjoint) (n : ℕ)
    (taken : Finset ℕ) (rules : List PortRule) (dead : Dead) :
    P'.search n taken (rules.map (PortRule.rename σ)) dead =
      (P.search n taken rules dead).map (List.map (PortRule.rename σ)) id := by
  induction n generalizing taken rules dead with
  | zero =>
    rw [search, search, h.openGroups_eq]
    rfl
  | succ n ih =>
    have hattempt : ∀ m ∈ P.moves taken, ∀ (rs : List PortRule) (k : Dead × List Move),
        P'.attempt (fun own => P'.search n (taken ∪ own)) (m.1, σ m.2)
          (rs.map (PortRule.rename σ)) (k.1, k.2.map fun m => (m.1, σ m.2)) =
        (P.attempt (fun own => P.search n (taken ∪ own)) m rs k).map
          (List.map (PortRule.rename σ)) fun k => (k.1, k.2.map fun m => (m.1, σ m.2)) := by
      intro m _ rs k
      have hany : ((k.2.map fun m => (m.1, σ m.2)).any fun t =>
          decide (t.2 = σ m.2) && decide (m.1 ⊆ t.1)) =
          k.2.any fun t => decide (t.2 = m.2) && decide (m.1 ⊆ t.1) := by
        rw [List.any_map]
        refine congrArg (List.any k.2) (funext fun t => ?_)
        simp only [Function.comp_apply, σ.injective.eq_iff]
      have hadd : rs.map (PortRule.rename σ) ++ [⟨tightest P'.idBits m.1, σ m.2⟩] =
          (rs ++ [(⟨tightest P.idBits m.1, m.2⟩ : PortRule)]).map (PortRule.rename σ) := by
        rw [List.map_append, h.1]
        rfl
      rw [attempt, attempt]
      simp only [hany]
      by_cases hd : (k.2.any fun t => decide (t.2 = m.2) && decide (m.1 ⊆ t.1)) = true
      · rw [if_pos hd, if_pos hd]
        rfl
      · rw [if_neg hd, if_neg hd, hadd, ih]
        by_cases hf : (P.search n (taken ∪ m.1) (rs ++ [⟨tightest P.idBits m.1, m.2⟩])
            k.1).found = true
        · simp only [Outcome.map, hf, if_true, List.map_cons, id]
        · simp only [Outcome.map, hf, if_false, List.map_cons, List.map_dropLast, id,
            Bool.false_eq_true]
    have heach : tryEach (P'.attempt fun own => P'.search n (taken ∪ own)) (P'.moves taken)
        (rules.map (PortRule.rename σ)) (dead, []) =
        (tryEach (P.attempt fun own => P.search n (taken ∪ own)) (P.moves taken) rules
          (dead, [])).map (List.map (PortRule.rename σ))
          fun k => (k.1, k.2.map fun m => (m.1, σ m.2)) := by
      rw [h.moves_eq hdisj]
      exact tryEach_map (χ := fun k : Dead × List Move => (k.1, k.2.map fun m => (m.1, σ m.2)))
        hattempt rules (dead, [])
    rw [search, search, h.openGroups_eq, heach]
    by_cases h₁ : P.openGroups taken = 0
    · rw [if_pos h₁, if_pos h₁]
      rfl
    · rw [if_neg h₁, if_neg h₁]
      by_cases h₂ : P.openGroups taken > n + 1 ∨ (taken, n + 1) ∈ dead
      · rw [if_pos h₂, if_pos h₂]
        rfl
      · rw [if_neg h₂, if_neg h₂]
        by_cases hf : (tryEach (P.attempt fun own => P.search n (taken ∪ own)) (P.moves taken)
            rules (dead, [])).found = true
        · simp only [Outcome.map, hf, if_true, id]
        · simp only [Outcome.map, hf, if_false, id, Bool.false_eq_true]

theorem Renames.firstLength_eq (h : Renames σ P P') (hdisj : P.claims.Pairwise Disjoint)
    (taken : Finset ℕ) (lengths : List ℕ) (rules : List PortRule) (dead : Dead) :
    P'.firstLength taken lengths (rules.map (PortRule.rename σ)) dead =
      (P.firstLength taken lengths rules dead).map (List.map (PortRule.rename σ)) := by
  induction lengths generalizing rules dead with
  | nil => rfl
  | cons length lengths ih =>
    rw [firstLength, firstLength, h.search_eq hdisj]
    by_cases hf : (P.search length taken rules dead).found = true
    · simp only [Outcome.map, hf, if_true, Option.map_some]
    · simp only [Outcome.map, hf, if_false, id, Bool.false_eq_true]
      exact ih _ _

end OrderedProblem

open OrderedProblem in
/-- **The rules in first-match order**, with the groups in other places. -/
theorem orderedRules_rename (hσ : ∀ i, keys'[σ i]? = keys[i]?)
    (hG : ∀ k ∈ keys, (G k).Alike (G' k)) (hapart : ClaimsApart (keys.map G) idBits)
    (hexisting : ∀ c, c ∈ existing ↔ c ∈ existing') (budget : ℕ) :
    orderedRules (keys'.map G') existing' idBits budget =
      (orderedRules (keys.map G) existing idBits budget).map (List.map (PortRule.rename σ)) := by
  have hren : Renames σ ⟨idBits, keys.map G⟩ ⟨idBits, keys'.map G'⟩ := by
    refine ⟨rfl, fun g => ?_⟩
    simp only [claims, List.getElem?_map, hσ, Option.map_map]
    cases hk : keys[g]? with
    | none => rfl
    | some k => exact congrArg some ((hG k (List.mem_of_getElem? hk)).ids_eq).symm
  have htaken : existing'.foldl (fun ids c => ids ∪ cubeIds c idBits) (∅ : Finset ℕ) =
      existing.foldl (fun ids c => ids ∪ cubeIds c idBits) ∅ := by
    have hmem : ∀ (l : List Cube) (s : Finset ℕ) (id : ℕ),
        id ∈ l.foldl (fun ids c => ids ∪ cubeIds c idBits) s ↔
          id ∈ s ∨ ∃ c ∈ l, id ∈ cubeIds c idBits := by
      intro l
      induction l with
      | nil => simp
      | cons c l ih =>
        intro s id
        simp [ih, or_assoc]
    ext id
    rw [hmem, hmem]
    simp only [hexisting]
  have hfirst := hren.firstLength_eq hapart
    (existing.foldl (fun ids c => ids ∪ cubeIds c idBits) ∅) (List.range' 1 budget) [] []
  rw [List.map_nil] at hfirst
  rw [orderedRules, orderedRules]
  simp only [htaken, hren.claimed_eq]
  split_ifs
  · rfl
  · rfl
  · exact hfirst

/-- **The rules of some groups**, in whatever order the groups are. -/
theorem portRules_perm (hσ : ∀ i, keys'[σ i]? = keys[i]?) (hG : ∀ k ∈ keys, (G k).Alike (G' k))
    (hwidth : ∀ k ∈ keys, (G k).InWidth idBits) (hapart : ClaimsApart (keys.map G) idBits)
    (hexisting : ∀ c, c ∈ existing ↔ c ∈ existing')
    (hlen : existing'.length = existing.length) :
    (portRules (keys'.map G') existing' idBits slots).Perm
      ((portRules (keys.map G) existing idBits slots).map (PortRule.rename σ)) := by
  have happerm := apartRules_perm hσ hG hwidth hexisting
  have hlength := happerm.length_eq
  rw [List.length_map] at hlength
  rw [portRules, portRules, hlength, hlen, orderedRules_rename hσ hG hapart hexisting]
  split_ifs
  · exact happerm
  · cases orderedRules (keys.map G) existing idBits (slots - existing.length) with
    | none => exact happerm
    | some rules => exact List.Perm.rfl

end Places

end MlirAie.Route
