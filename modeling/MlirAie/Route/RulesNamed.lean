import MlirAie.Route.RulesOrder

/-!
# Rules by the names of their groups

The overlay's groups take the rules they take alone, and the others theirs after them. Where groups
have names, so have the rules, and they are the same ones whatever the order of the groups.

* `portRules_valid`: rules select groups there are;
* `named`, **`slavePortRules_named`**: the rules of a port, by the names of the groups they select;
* **`named_perm`**: the groups in another order.
-/

namespace MlirAie.Route

open Lib

variable {idBits slots id : ℕ}

/-! ## Rules of the groups there are -/

namespace OrderedProblem

variable {P : OrderedProblem} {taken : Finset ℕ} {rules : List PortRule} {dead : Dead}

/-- The rules a search finds select groups there are, by values in their masks. -/
theorem search_rules {n : ℕ} (h : (P.search n taken rules dead).found = true) :
    ∀ r ∈ (P.search n taken rules dead).state, r ∈ rules ∨
      r.group < P.claims.length ∧ r.rule.value &&& r.rule.mask = r.rule.value := by
  induction n generalizing taken rules dead with
  | zero => exact fun r hr => .inl hr
  | succ n ih =>
    rw [search] at h ⊢
    split_ifs at h ⊢ with hdone hcut
    · exact fun r hr => .inl hr
    · simp only at h ⊢
      split_ifs at h ⊢ with hfound
      obtain ⟨m, hm, k, hk, heq⟩ :=
        tryEach_found (fun m _ => search_attempt_undoes n taken rules m) hfound
      rw [heq]
      rw [attempt] at hk ⊢
      simp only at hk ⊢
      split_ifs at hk ⊢ with hdominated hnext
      intro r hr
      rcases ih hnext r hr with hr | hr
      · rcases List.mem_append.1 hr with hr | hr
        · exact .inl hr
        · obtain rfl := List.mem_singleton.1 hr
          obtain ⟨cube, hcube, hne, hown, ids, hids, -⟩ := mem_moves.1 hm
          obtain ⟨c, hc, rfl⟩ := mem_cubes.1 hcube
          obtain ⟨x, hx⟩ := hne
          have hlist : x ∈ idList P.idBits m.1 :=
            mem_idList.2 ⟨(mem_cubeIds.1 (Finset.mem_inter.1 hx).1).1, hown ▸ hx⟩
          exact .inr ⟨(List.getElem?_eq_some_iff.1 hids).1,
            (within_tightest (List.ne_nil_of_mem hlist)).sub⟩
      · exact .inr hr

theorem firstLength_rules {lengths : List ℕ} {rs : List PortRule}
    (h : P.firstLength taken lengths [] dead = some rs) :
    ∀ r ∈ rs, r.group < P.claims.length ∧ r.rule.value &&& r.rule.mask = r.rule.value := by
  induction lengths generalizing dead with
  | nil => cases h
  | cons length lengths ih =>
    rw [firstLength] at h
    split_ifs at h with hfound
    · obtain rfl := Option.some.inj h
      exact fun r hr => (search_rules hfound r hr).resolve_left List.not_mem_nil
    · rw [search_undoes length taken [] dead (Bool.not_eq_true _ ▸ hfound)] at h
      exact ih h

end OrderedProblem

variable {groups : List GroupClaims} {existing : List Cube}

theorem portRules_valid (hwidth : ∀ group ∈ groups, group.InWidth idBits) {r : PortRule}
    (hr : r ∈ portRules groups existing idBits slots) :
    r.group < groups.length ∧ r.rule.value &&& r.rule.mask = r.rule.value := by
  have happart : r ∈ apartRules groups existing idBits →
      r.group < groups.length ∧ r.rule.value &&& r.rule.mask = r.rule.value := by
    intro hr
    obtain ⟨group, hg, hrule⟩ := mem_apartRules.1 hr
    exact ⟨(List.getElem?_eq_some_iff.1 hg).1,
      groupRules_sub (hwidth group (List.mem_of_getElem? hg)) hrule⟩
  rw [portRules] at hr
  split_ifs at hr
  · exact happart hr
  · cases hordered : orderedRules groups existing idBits (slots - existing.length) with
    | none =>
      rw [hordered] at hr
      exact happart hr
    | some rules =>
      rw [hordered, Option.getD_some] at hr
      rw [orderedRules] at hordered
      split_ifs at hordered
      have h := OrderedProblem.firstLength_rules hordered r hr
      rwa [OrderedProblem.claims, List.length_map] at h

/-! ## Rules by the names of their groups -/

section Named

variable {K : Type*} [DecidableEq K] {keys keys' : List K} {G G' : K → GroupClaims}
  {σ : Equiv.Perm ℕ} {ov : K → Bool}

def named (keys : List K) (rules : List PortRule) : List (Cube × Option K) :=
  rules.map fun r => (r.rule, keys[r.group]?)

omit [DecidableEq K] in
theorem named_append (rules rules' : List PortRule) :
    named keys (rules ++ rules') = named keys rules ++ named keys rules' :=
  List.map_append

omit [DecidableEq K] in
theorem named_rename (hσ : ∀ i, keys'[σ i]? = keys[i]?) (rules : List PortRule) :
    named keys' (rules.map (PortRule.rename σ)) = named keys rules := by
  rw [named, List.map_map, named]
  refine List.map_congr_left fun r _ => ?_
  rw [Function.comp_apply, PortRule.rename, hσ]

/-- The rules of the groups that are the overlay's, or are not. -/
def partRules (keys : List K) (G : K → GroupClaims) (existing : List Cube) (idBits slots : ℕ) :
    List PortRule :=
  portRules (keys.map G) existing idBits slots

omit [DecidableEq K] in
theorem getElem?_members (p : K → Bool) {i : ℕ} (hi : i < (keys.filter p).length) :
    keys[((keys.zipIdx.filter fun m => p m.1).map (·.2)).getD i 0]? = (keys.filter p)[i]? := by
  have hfst : keys.filter p = (keys.zipIdx.filter fun m => p m.1).map (·.1) := by
    conv_lhs => rw [← List.zipIdx_map_fst 0 keys]
    rw [List.filter_map]
    rfl
  rw [hfst, List.length_map] at hi
  rw [hfst, List.getD_eq_getElem?_getD, List.getElem?_map, List.getElem?_map,
    List.getElem?_eq_getElem hi, Option.map_some, Option.map_some, Option.getD_some]
  have hmem := List.getElem_mem hi
  exact List.mem_zipIdx_iff_getElem?.1 (List.mem_filter.1 hmem).1

omit [DecidableEq K] in
theorem addRules_named (slots : ℕ) (hov : ∀ k ∈ keys, (G k).overlay = ov k)
    (hwidth : ∀ k ∈ keys, (G k).InWidth idBits) (overlay : Bool) (s : List Cube × List PortRule) :
    ∃ rules, (addRules (keys.map G) idBits slots s overlay).2 = s.2 ++ rules ∧
      named keys rules = named (keys.filter (ov · = overlay))
        (partRules (keys.filter (ov · = overlay)) G s.1 idBits slots) ∧
      (s.2 = [] →
        (addRules (keys.map G) idBits slots s overlay).1 = s.1 ++ rules.map (·.rule)) := by
  have hmembers : ((keys.map G).zipIdx.filter fun m => m.1.overlay = overlay) =
      (keys.zipIdx.filter fun m => ov m.1 = overlay).map fun m => (G m.1, m.2) := by
    rw [List.zipIdx_map, List.filter_map]
    refine congrArg _ (List.filter_congr fun m hm => ?_)
    rw [Function.comp_apply, Prod.map_fst, hov m.1
      (List.mem_of_getElem? (List.mem_zipIdx_iff_getElem?.1 hm))]
  have hfst : ((keys.zipIdx.filter fun m => ov m.1 = overlay).map fun m => (G m.1, m.2)).map (·.1) =
      (keys.filter (ov · = overlay)).map G := by
    conv_rhs => rw [← List.zipIdx_map_fst 0 keys]
    rw [List.filter_map, List.map_map, List.map_map]
    rfl
  have hsnd : ((keys.zipIdx.filter fun m => ov m.1 = overlay).map fun m => (G m.1, m.2)).map (·.2) =
      (keys.zipIdx.filter fun m => ov m.1 = overlay).map (·.2) := by
    rw [List.map_map]
    rfl
  let rules := (partRules (keys.filter (ov · = overlay)) G s.1 idBits slots).map fun r =>
    (⟨r.rule, ((keys.zipIdx.filter fun m => ov m.1 = overlay).map (·.2)).getD r.group 0⟩ : PortRule)
  have hvalid : ∀ r ∈ partRules (keys.filter (ov · = overlay)) G s.1 idBits slots,
      keys[((keys.zipIdx.filter fun m => ov m.1 = overlay).map (·.2)).getD r.group 0]? =
        (keys.filter (ov · = overlay))[r.group]? ∧
      ∃ k, (keys.filter (ov · = overlay))[r.group]? = some k := by
    intro r hr
    have hlt := (portRules_valid (fun group hgroup => ?_) hr).1
    · rw [List.length_map] at hlt
      exact ⟨getElem?_members _ hlt, _, List.getElem?_eq_getElem hlt⟩
    · obtain ⟨k, hk, rfl⟩ := List.mem_map.1 hgroup
      exact hwidth k (List.mem_filter.1 hk).1
  have hnamed : named keys rules = named (keys.filter (ov · = overlay))
      (partRules (keys.filter (ov · = overlay)) G s.1 idBits slots) := by
    rw [named, List.map_map, named]
    refine List.map_congr_left fun r hr => ?_
    rw [Function.comp_apply, (hvalid r hr).1]
  by_cases hempty : (keys.zipIdx.filter fun m => ov m.1 = overlay) = []
  · -- without groups there are no rules
    have hnone : keys.filter (ov · = overlay) = [] := by
      have h := congrArg (List.map (·.1)) hempty
      rw [show List.map (·.1) (keys.zipIdx.filter fun m => ov m.1 = overlay) =
        keys.filter (ov · = overlay) from by
          conv_rhs => rw [← List.zipIdx_map_fst 0 keys]
          rw [List.filter_map]
          rfl] at h
      exact h
    refine ⟨[], ?_, ?_, fun _ => ?_⟩
    · rw [addRules, hmembers, hempty, List.append_nil]
      rfl
    · rw [hnone]
      have hrules : partRules ([] : List K) G s.1 idBits slots = [] := by
        refine List.eq_nil_iff_forall_not_mem.2 fun r hr => ?_
        have hlt := (portRules_valid (fun group hgroup => absurd hgroup List.not_mem_nil) hr).1
        exact Nat.not_lt_zero _ hlt
      rw [hrules]
      rfl
    · rw [List.map_nil, List.append_nil, addRules, hmembers, hempty]
      rfl
  · have hmap : (keys.zipIdx.filter fun m => ov m.1 = overlay).map (fun m => (G m.1, m.2)) ≠ [] :=
      fun h => hempty (List.map_eq_nil_iff.1 h)
    refine ⟨rules, ?_, hnamed, fun hnil => ?_⟩
    · rw [addRules, hmembers]
      simp only [if_neg hmap, hfst, hsnd]
      rfl
    · rw [addRules, hmembers]
      simp only [if_neg hmap, hfst, hsnd, hnil, List.nil_append]
      refine congrArg (s.1 ++ ·) (congrArg (List.map _) (List.filter_eq_self.2 fun r hr => ?_))
      obtain ⟨r', hr', rfl⟩ := List.mem_map.1 hr
      obtain ⟨heq, k, hk⟩ := hvalid r' hr'
      rw [hk] at heq
      rw [decide_eq_true_eq, List.getElem?_map, heq, Option.map_some, Option.map_some,
        hov k (List.mem_of_getElem? heq)]
      exact congrArg some (of_decide_eq_true (List.mem_filter.1 (List.mem_of_getElem? hk)).2)

omit [DecidableEq K] in
/-- **The rules of a port by the names of their groups**: those the overlay's groups take alone, and
those of the others after them. -/
theorem slavePortRules_named (existing : List Cube) (slots : ℕ)
    (hov : ∀ k ∈ keys, (G k).overlay = ov k)
    (hwidth : ∀ k ∈ keys, (G k).InWidth idBits) :
    named keys (slavePortRules (keys.map G) existing idBits slots) =
      named (keys.filter (ov · = true))
        (partRules (keys.filter (ov · = true)) G existing idBits slots) ++
      named (keys.filter (ov · = false)) (partRules (keys.filter (ov · = false)) G (existing ++
        (partRules (keys.filter (ov · = true)) G existing idBits slots).map (·.rule))
        idBits slots) := by
  obtain ⟨first, hrules, hfirst, htaken⟩ :=
    addRules_named slots hov hwidth true (existing, [])
  obtain ⟨second, hrules', hsecond, -⟩ := addRules_named slots hov hwidth false
    (addRules (keys.map G) idBits slots (existing, []) true)
  have hcubes : first.map (·.rule) =
      (partRules (keys.filter (ov · = true)) G existing idBits slots).map (·.rule) := by
    have h := congrArg (List.map Prod.fst) hfirst
    simpa only [named, List.map_map, Function.comp_def] using h
  rw [slavePortRules, List.foldl_cons, List.foldl_cons, List.foldl_nil, hrules', named_append,
    hrules, List.nil_append, hfirst, hsecond, htaken rfl, hcubes]

/-- **The rules of a port are the same ones**, whatever the order of the groups. -/
theorem named_perm (ov : K → Bool) (hkeys : keys.Nodup) (hperm : keys.Perm keys')
    (hov : ∀ k ∈ keys, (G k).overlay = ov k) (hov' : ∀ k ∈ keys', (G' k).overlay = ov k)
    (hG : ∀ k ∈ keys, (G k).Alike (G' k)) (hwidth : ∀ k ∈ keys, (G k).InWidth idBits)
    (hwidth' : ∀ k ∈ keys', (G' k).InWidth idBits)
    (hapart : ∀ b, ClaimsApart ((keys.filter (ov · = b)).map G) idBits) :
    (named keys' (slavePortRules (keys'.map G') existing idBits slots)).Perm
      (named keys (slavePortRules (keys.map G) existing idBits slots)) := by
  have hpart : ∀ (b : Bool) (ex ex' : List Cube), (∀ c, c ∈ ex ↔ c ∈ ex') →
      ex'.length = ex.length →
      (named (keys'.filter (ov · = b)) (partRules (keys'.filter (ov · = b)) G' ex' idBits
        slots)).Perm (named (keys.filter (ov · = b)) (partRules (keys.filter (ov · = b)) G ex idBits
          slots)) := by
    intro b ex ex' hex hlen
    obtain ⟨σ, hσ⟩ := exists_places (hkeys.filter (ov · = b)) (hperm.filter (ov · = b))
    rw [← named_rename hσ]
    exact (portRules_perm hσ (fun k hk => hG k (List.mem_filter.1 hk).1)
      (fun k hk => hwidth k (List.mem_filter.1 hk).1) (hapart b) hex hlen).map _
  have hfirst := hpart true existing existing (fun _ => Iff.rfl) rfl
  have hcubes : ((partRules (keys'.filter (ov · = true)) G' existing idBits slots).map
      (·.rule)).Perm ((partRules (keys.filter (ov · = true)) G existing idBits slots).map
        (·.rule)) := by
    have h := hfirst.map Prod.fst
    simpa only [named, List.map_map, Function.comp_def] using h
  rw [slavePortRules_named existing slots hov hwidth,
    slavePortRules_named existing slots hov' hwidth']
  refine hfirst.append (hpart false _ _ (fun c => ?_) ?_)
  · rw [List.mem_append, List.mem_append, hcubes.mem_iff]
  · rw [List.length_append, List.length_append, hcubes.length_eq]

end Named

end MlirAie.Route
