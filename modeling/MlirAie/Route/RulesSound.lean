import MlirAie.Route.OrderedOptimal
import MlirAie.Route.Rules

/-!
# Groups with rules of their own

Whatever is to be avoided, a group's rules match the ids it claims, and none that another claims: a
cover that cannot avoid all cubes falls back to one rule for each id. So where the groups claim
different ids, each id they claim matches a rule of its group first.

* `computeSubcubeCover_covers`, `computeSubcubeCover_apart`: a cover, whatever it is to avoid;
* `apartRules_routes`, `orderedRules_routes`: rules of each group's own, and in first-match order;
* **`portRules_routes`**: the rules of some groups send each id to the group that claims it.
-/

namespace MlirAie.Route

open Lib

variable {idBits slots id x : ℕ} {c : Cube} {groups : List GroupClaims} {existing : List Cube}

/-! ## Covers -/

variable {matchIds : List ℕ} {avoidCubes : List Cube}

theorem chosenCubes_covers (avoidCubes : List Cube) (hids : ∀ id ∈ matchIds, id < 2 ^ idBits) :
    (∀ q ∈ chosenCubes matchIds avoidCubes idBits, q.Within idBits) ∧
      (∀ id ∈ matchIds, ∃ q ∈ chosenCubes matchIds avoidCubes idBits, q.Matches idBits id) ∧
      ((∀ q ∈ chosenCubes matchIds avoidCubes idBits, hitsAvoid avoidCubes q = false) ∨
        chosenCubes matchIds avoidCubes idBits =
          matchIds.map fun id => ⟨2 ^ idBits - 1, id⟩) := by
  let covers : CoverCube → ℕ → Bool := fun cb id => decide (id ∈ cb.cov)
  let best := bnbMinCover (primes matchIds avoidCubes idBits) (1 <<< idBits)
    (matchMask matchIds idBits) [] ⟨matchIds.length + 1, []⟩
  have hdef : chosenCubes matchIds avoidCubes idBits =
      if best.sel.map CoverCube.cube = [] then matchIds.map fun id => ⟨2 ^ idBits - 1, id⟩
      else best.sel.map CoverCube.cube := by
    rw [← Nat.one_shiftLeft]
    rfl
  have hfound : Found covers (primes matchIds avoidCubes idBits) (matchMask matchIds idBits) []
      ⟨matchIds.length + 1, []⟩ best := minCover_sel _ _ _ _
  rw [hdef]
  split_ifs with hempty
  · refine ⟨fun q hq => ?_, fun id hid => ⟨_, List.mem_map_of_mem hid, ?_⟩, .inr rfl⟩
    · obtain ⟨id, hid, rfl⟩ := List.mem_map.1 hq
      exact within_single (hids id hid)
    · exact (matches_single (hids id hid) (hids id hid)).2 rfl
  · rcases hfound with heq | ⟨-, C, hC, hcov, hsel⟩
    · exact absurd (by rw [heq]; rfl) hempty
    · rw [List.nil_append] at hsel
      rw [hsel]
      have hprime : ∀ q ∈ C.map CoverCube.cube,
          q.Within idBits ∧ hitsAvoid avoidCubes q = false := by
        intro q hq
        obtain ⟨p, hp, rfl⟩ := List.mem_map.1 hq
        have h := of_mem_primes (hC hp)
        exact ⟨h.1, h.2.1⟩
      refine ⟨fun q hq => (hprime q hq).1, fun id hid => ?_, .inl fun q hq => (hprime q hq).2⟩
      obtain ⟨p, hp, hmem⟩ := hcov id ((mem_matchMask hids).2 hid)
      exact ⟨p.cube, List.mem_map_of_mem hp,
        ((of_mem_primes (hC hp)).2.2 id).1 (of_decide_eq_true hmem) |>.2⟩

theorem computeSubcubeCover_covers (avoidCubes : List Cube)
    (hids : ∀ id ∈ matchIds, id < 2 ^ idBits) (hid : id ∈ matchIds) :
    ∃ r ∈ computeSubcubeCover matchIds avoidCubes idBits, r.Matches idBits id := by
  obtain ⟨hwithin, hcovers, -⟩ := chosenCubes_covers avoidCubes hids
  obtain ⟨k, hlt, hmem⟩ := exists_mem_assigned hwithin hid (hcovers id hid)
  have hne := List.ne_nil_of_mem hmem
  exact ⟨_, mem_computeSubcubeCover.2 ⟨k, hlt, hne, rfl⟩,
    (spans_tighten hne).matches_of_mem hmem⟩

theorem computeSubcubeCover_apart (hids : ∀ id ∈ matchIds, id < 2 ^ idBits) {r : Cube}
    (hr : r ∈ computeSubcubeCover matchIds avoidCubes idBits) (hx : x < 2 ^ idBits)
    (hmatch : r.Matches idBits x) :
    x ∈ matchIds ∨ ∀ c ∈ avoidCubes, ¬c.Matches idBits x := by
  obtain ⟨hwithin, -, hcases⟩ := chosenCubes_covers avoidCubes hids
  obtain ⟨k, hlt, hne, rfl⟩ := mem_computeSubcubeCover.1 hr
  have hin : ((chosenCubes matchIds avoidCubes idBits).get ⟨k, hlt⟩).Matches idBits x :=
    (spans_tighten hne).sub (fun id hid => matches_of_mem_assigned hwithin hlt hid) hmatch
  have hmem := List.get_mem (chosenCubes matchIds avoidCubes idBits) ⟨k, hlt⟩
  generalize (chosenCubes matchIds avoidCubes idBits).get ⟨k, hlt⟩ = q at hin hmem
  rcases hcases with hfree | hsingle
  · refine .inr fun c hc hcx => ?_
    exact (hitsAvoid_eq_false_iff (hwithin _ hmem).lt).1 (hfree _ hmem) c hc ⟨x, hx, hin, hcx⟩
  · rw [hsingle, List.mem_map] at hmem
    obtain ⟨id, hid, heq⟩ := hmem
    rw [← heq, matches_single (hids id hid) hx] at hin
    exact .inl (hin ▸ hid)

/-! ## Groups -/

theorem mem_ids {group : GroupClaims} :
    id ∈ group.ids idBits ↔ (∃ c ∈ group.stated, id ∈ cubeIds c idBits) ∨ id ∈ group.derived := by
  have hstated : ∀ (l : List Cube) (s : Finset ℕ),
      id ∈ l.foldl (fun ids c => ids ∪ cubeIds c idBits) s ↔
        id ∈ s ∨ ∃ c ∈ l, id ∈ cubeIds c idBits := by
    intro l
    induction l with
    | nil => simp
    | cons c l ih => simp [ih, or_assoc]
  have hderived : ∀ (l : List ℕ) (s : Finset ℕ),
      id ∈ l.foldl (fun ids id => insert id ids) s ↔ id ∈ s ∨ id ∈ l := by
    intro l
    induction l with
    | nil => simp
    | cons x l ih =>
      intro s
      rw [List.foldl_cons, ih, Finset.mem_insert, List.mem_cons]
      tauto
  rw [GroupClaims.ids, hderived, hstated]
  simp

structure GroupClaims.InWidth (idBits : ℕ) (group : GroupClaims) : Prop where
  value_lt : ∀ c ∈ group.stated, c.value < 2 ^ idBits
  value_sub : ∀ c ∈ group.stated, c.value &&& c.mask = c.value
  derived_lt : ∀ id ∈ group.derived, id < 2 ^ idBits

theorem mem_cubeIds_of_value_lt (hc : c.value < 2 ^ idBits) :
    id ∈ cubeIds c idBits ↔ id < 2 ^ idBits ∧ c.Matches idBits id := by
  rw [mem_cubeIds]
  refine and_congr_right fun hid => ⟨fun h i _ hi => ?_, fun h => Nat.eq_of_testBit_eq fun i => ?_⟩
  · have hbit := congrArg (Nat.testBit · i) h
    simpa [hi] using hbit
  · rw [Nat.testBit_and, Nat.testBit_and]
    by_cases hi : i < idBits
    · cases hm : c.mask.testBit i with
      | false => simp
      | true => rw [h i hi hm]
    · rw [testBit_eq_false hid (not_lt.1 hi), testBit_eq_false hc (not_lt.1 hi)]

variable {group : GroupClaims} {avoid : List Cube}

theorem mem_groupRules {r : Cube} :
    r ∈ groupRules group.stated group.derived avoid idBits ↔ r ∈ group.stated ∨
      group.derived ≠ [] ∧
        r ∈ computeSubcubeCover group.derived (avoid ++ group.stated) idBits := by
  rw [groupRules]
  split_ifs with h
  · simp [h]
  · simp [h]

theorem groupRules_covers (avoid : List Cube) (hgroup : group.InWidth idBits)
    (hid : id ∈ group.ids idBits) :
    ∃ r ∈ groupRules group.stated group.derived avoid idBits, id ∈ cubeIds r idBits := by
  rcases mem_ids.1 hid with ⟨c, hc, hid⟩ | hid
  · exact ⟨c, mem_groupRules.2 (.inl hc), hid⟩
  · obtain ⟨r, hr, hmatch⟩ :=
      computeSubcubeCover_covers (avoid ++ group.stated) hgroup.derived_lt hid
    refine ⟨r, mem_groupRules.2 (.inr ⟨List.ne_nil_of_mem hid, hr⟩), ?_⟩
    rw [mem_cubeIds_of_within (within_of_mem_computeSubcubeCover hr)]
    exact ⟨hgroup.derived_lt id hid, hmatch⟩

theorem groupRules_apart (hgroup : group.InWidth idBits) {r : Cube}
    (hr : r ∈ groupRules group.stated group.derived avoid idBits) (hx : x ∈ cubeIds r idBits) :
    x ∈ group.ids idBits ∨ ∀ c ∈ avoid, ¬c.Matches idBits x := by
  rcases mem_groupRules.1 hr with hr | ⟨-, hr⟩
  · exact .inl (mem_ids.2 (.inl ⟨r, hr, hx⟩))
  · obtain ⟨hlt, hmatch⟩ :=
      (mem_cubeIds_of_within (within_of_mem_computeSubcubeCover hr)).1 hx
    rcases computeSubcubeCover_apart hgroup.derived_lt hr hlt hmatch with h | h
    · exact .inl (mem_ids.2 (.inr h))
    · exact .inr fun c hc => h c (List.mem_append_left _ hc)

theorem groupRules_sub (hgroup : group.InWidth idBits) {r : Cube}
    (hr : r ∈ groupRules group.stated group.derived avoid idBits) :
    r.value &&& r.mask = r.value := by
  rcases mem_groupRules.1 hr with hr | ⟨-, hr⟩
  · exact hgroup.value_sub r hr
  · exact (within_of_mem_computeSubcubeCover hr).sub

theorem exists_claim_of_mem_ids (hgroup : group.InWidth idBits) (hid : id ∈ group.ids idBits) :
    ∃ c ∈ group.claims idBits, c.Matches idBits id := by
  rcases mem_ids.1 hid with ⟨c, hc, hid⟩ | hid
  · exact ⟨c, List.mem_append_left _ hc,
      ((mem_cubeIds_of_value_lt (hgroup.value_lt c hc)).1 hid).2⟩
  · refine ⟨_, List.mem_append_right _ (List.mem_map_of_mem hid), ?_⟩
    rw [Nat.one_shiftLeft]
    exact (matches_single (hgroup.derived_lt id hid) (hgroup.derived_lt id hid)).2 rfl

theorem mem_otherClaims {g : ℕ} :
    c ∈ otherClaims groups idBits g ↔
      ∃ o other, groups[o]? = some other ∧ o ≠ g ∧ c ∈ other.claims idBits := by
  simp only [otherClaims, List.mem_flatMap, Prod.exists, List.mem_zipIdx_iff_getElem?]
  constructor
  · rintro ⟨other, o, ho, hc⟩
    split_ifs at hc with h
    · cases hc
    · exact ⟨o, other, ho, h, hc⟩
  · rintro ⟨o, other, ho, h, hc⟩
    exact ⟨other, o, ho, by rwa [if_neg h]⟩

theorem mem_apartRules {r : PortRule} :
    r ∈ apartRules groups existing idBits ↔ ∃ group, groups[r.group]? = some group ∧
      r.rule ∈ groupRules group.stated group.derived
        (existing ++ otherClaims groups idBits r.group) idBits := by
  simp only [apartRules, List.mem_flatMap, List.mem_map, Prod.exists, List.mem_zipIdx_iff_getElem?]
  constructor
  · rintro ⟨group, g, hg, rule, hrule, rfl⟩
    exact ⟨group, hg, hrule⟩
  · rintro ⟨group, hg, hrule⟩
    exact ⟨group, r.group, hg, r.rule, hrule, rfl⟩

/-! ## Rules that send each id to its group -/

/-- No id is claimed by two groups. -/
def ClaimsApart (groups : List GroupClaims) (idBits : ℕ) : Prop :=
  (groups.map fun g => g.ids idBits).Pairwise Disjoint

theorem ClaimsApart.eq_of_mem (h : ClaimsApart groups idBits) {g g' : ℕ} {a b : GroupClaims}
    (hg : groups[g]? = some a) (hg' : groups[g']? = some b) (ha : id ∈ a.ids idBits)
    (hb : id ∈ b.ids idBits) : g = g' := by
  have hget : ∀ {g : ℕ} {a : GroupClaims}, groups[g]? = some a →
      ∃ hlt : g < (groups.map fun g => g.ids idBits).length,
        (groups.map fun g => g.ids idBits)[g] = a.ids idBits := by
    intro g a hg
    refine List.getElem?_eq_some_iff.1 ?_
    rw [List.getElem?_map, hg, Option.map_some]
  obtain ⟨hlt, heq⟩ := hget hg
  obtain ⟨hlt', heq'⟩ := hget hg'
  by_contra hne
  rcases lt_or_gt_of_ne hne with hlt'' | hlt''
  · have hdisj := List.pairwise_iff_getElem.1 h g g' hlt hlt' hlt''
    rw [heq, heq'] at hdisj
    exact Finset.disjoint_left.1 hdisj ha hb
  · have hdisj := List.pairwise_iff_getElem.1 h g' g hlt' hlt hlt''
    rw [heq, heq'] at hdisj
    exact Finset.disjoint_left.1 hdisj hb ha

theorem apartRules_routes (hwidth : ∀ group ∈ groups, group.InWidth idBits)
    (hapart : ClaimsApart groups idBits) :
    RoutesClaims groups idBits (apartRules groups existing idBits) := by
  intro g group hg id hid
  obtain ⟨r, hr, hmem⟩ := groupRules_covers (existing ++ otherClaims groups idBits g)
    (hwidth group (List.mem_of_getElem? hg)) hid
  have hsome : (firstRule (apartRules groups existing idBits) idBits id).isSome := by
    rw [firstRule, List.find?_isSome]
    exact ⟨⟨r, g⟩, mem_apartRules.2 ⟨group, hg, hr⟩, decide_eq_true hmem⟩
  obtain ⟨first, hfirst⟩ := Option.isSome_iff_exists.1 hsome
  refine ⟨first, hfirst, ?_⟩
  obtain ⟨other, ho, hrule⟩ := mem_apartRules.1 (List.mem_of_find?_eq_some hfirst)
  have hmatch := List.find?_some hfirst
  by_contra hne
  rcases groupRules_apart (hwidth other (List.mem_of_getElem? ho)) hrule
    (of_decide_eq_true hmatch) with hin | hout
  · exact hne (hapart.eq_of_mem ho hg hin hid)
  · obtain ⟨c, hc, hcx⟩ := exists_claim_of_mem_ids (hwidth group (List.mem_of_getElem? hg)) hid
    refine hout c (List.mem_append_right _ (mem_otherClaims.2 ⟨g, group, hg, ?_, hc⟩)) hcx
    exact fun h => hne h.symm

open OrderedProblem in
theorem orderedRules_routes {budget : ℕ} {rules : List PortRule}
    (hapart : ClaimsApart groups idBits)
    (h : orderedRules groups existing idBits budget = some rules) :
    RoutesClaims groups idBits rules ∧ rules.length ≤ budget := by
  have hrun : orderedRules groups existing idBits budget =
      if idBits > 6 then none
      else if (existing.foldl (fun ids c => ids ∪ cubeIds c idBits) ∅ ∩
        claimed ⟨idBits, groups⟩).Nonempty then none
      else firstLength ⟨idBits, groups⟩ (existing.foldl (fun ids c => ids ∪ cubeIds c idBits) ∅)
        (List.range' 1 budget) [] [] := rfl
  rw [hrun] at h
  split_ifs at h with hbits htaken
  have hleft : left ⟨idBits, groups⟩ (existing.foldl (fun ids c => ids ∪ cubeIds c idBits) ∅) =
      claimed ⟨idBits, groups⟩ := by
    refine Finset.sdiff_eq_self_of_disjoint (Finset.disjoint_iff_inter_eq_empty.2 ?_)
    rw [Finset.inter_comm]
    exact Finset.not_nonempty_iff_eq_empty.1 htaken
  have hnil : claimed ⟨idBits, groups⟩ = ∅ ∨ Unserved ⟨idBits, groups⟩
      (existing.foldl (fun ids c => ids ∪ cubeIds c idBits) ∅) (1 - 1) := by
    rcases Finset.eq_empty_or_nonempty (claimed ⟨idBits, groups⟩) with hempty | hne
    · exact .inl hempty
    · refine .inr fun rules hlen hserves => ?_
      rw [List.length_eq_zero_iff.1 (Nat.le_zero.1 hlen), hleft] at hserves
      obtain ⟨id, hid⟩ := hne
      obtain ⟨g, ids, hg, hidg⟩ := mem_claimed.1 hid
      obtain ⟨r, hr, _⟩ := hserves id hid g ids hg hidg
      cases hr
  have hspec := @firstLength_spec ⟨idBits, groups⟩ _ _ hapart 1 budget Nat.one_pos
    (fun p hp => absurd hp List.not_mem_nil) (hleft.symm ▸ hnil)
  rw [hleft] at hspec
  obtain ⟨hserves, hlen, -⟩ := hspec.1 rules h
  exact ⟨serves_claimed_iff.1 hserves, by omega⟩

/-- **The rules of some groups send each id to the group that claims it**, whatever rules go
before. -/
theorem portRules_routes (existing : List Cube) (slots : ℕ)
    (hwidth : ∀ group ∈ groups, group.InWidth idBits)
    (hapart : ClaimsApart groups idBits) :
    RoutesClaims groups idBits (portRules groups existing idBits slots) := by
  rw [portRules]
  split_ifs
  · exact apartRules_routes hwidth hapart
  · cases hordered : orderedRules groups existing idBits (slots - existing.length) with
    | none => exact apartRules_routes hwidth hapart
    | some rules => exact (orderedRules_routes hapart hordered).1

end MlirAie.Route
