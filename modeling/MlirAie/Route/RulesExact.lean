import MlirAie.Route.RulesNamed

/-!
# Where a slave port's rules send each id

The flows are grouped alike when they are checked and when the rules are emitted, but for the order.
The overlay's rules go first, as it would take them alone, so they match ids another group claims
unless a check keeps them from it: it is made only where the overlay's rules are pinned.

* `sends_iff`: the rules of a port send each id to its group just where the overlay's are apart;
* `slaveGroups_eq`, `RulePlan.checked_disjoint`: the groups of flows, and what is checked of them;
* **`RulePlan.emittedRules_sends_iff`**: the rules emitted send each id a group claims to that
  group, or to one of the overlay's that leaves alike, if and only if the overlay is pinned or its rules
  alone do not match ids of others first.
-/

namespace MlirAie.Route

open Lib

/-! ## What the rules do -/

/-- The rule an id matches first; none of a group's, where the rule was there before. -/
def firstMatch (existing : List Cube) (rules : List PortRule) (id : ℕ) :
    Option (Option PortRule) :=
  let slots : List (Cube × Option PortRule) :=
    (existing.map fun c => (c, none)) ++ rules.map fun r => (r.rule, some r)
  (slots.find? fun s => id &&& s.1.mask = s.1.value).map (·.2)

/-- Each id a group claims matches first a rule of that group, or of one of the overlay's that
leaves by the same master ports. -/
def SendsClaims (claims : List (GroupClaims × List Port)) (existing : List Cube) (idBits : ℕ)
    (rules : List PortRule) : Prop :=
  ∀ g own, claims[g]? = some own → ∀ id ∈ own.1.ids idBits,
    ∃ r, firstMatch existing rules id = some (some r) ∧ (r.group = g ∨
      ∃ other, claims[r.group]? = some other ∧ other.1.overlay = true ∧ other.2 = own.2)

/-- Where an id another group claims matches a rule the overlay's groups take alone, the first of
them leaves by that group's master ports. -/
def OverlayApart (claims : List (GroupClaims × List Port)) (existing : List Cube)
    (idBits slots : ℕ) : Prop :=
  ∀ own ∈ claims, own.1.overlay = false → ∀ id ∈ own.1.ids idBits, ∀ r,
    (slavePortRules ((claims.filter (·.1.overlay)).map (·.1)) existing idBits slots).find?
      (fun r => id &&& r.rule.mask = r.rule.value) = some r →
    ((claims.filter (·.1.overlay))[r.group]?).map (·.2) = some own.2

variable {idBits slots id : ℕ} {existing : List Cube}

/-! ## Rules that send each id to its group -/

section Named

variable {K : Type*} {keys : List K} {G : K → GroupClaims}

/-- The rule an id matches first, by the name of its group. -/
def firstNamed (rules : List (Cube × Option K)) (id : ℕ) : Option (Cube × Option K) :=
  rules.find? fun r => id &&& r.1.mask = r.1.value

theorem firstNamed_named (keys : List K) (rules : List PortRule) (id : ℕ) :
    firstNamed (named keys rules) id =
      (rules.find? fun r => id &&& r.rule.mask = r.rule.value).map
        fun r => (r.rule, keys[r.group]?) := by
  rw [firstNamed, named, List.find?_map]
  rfl

theorem firstNamed_append (rules rules' : List (Cube × Option K)) :
    firstNamed (rules ++ rules') id = (firstNamed rules id).or (firstNamed rules' id) :=
  List.find?_append

theorem lt_of_mem_ids {group : GroupClaims} (hgroup : group.InWidth idBits)
    (hid : id ∈ group.ids idBits) : id < 2 ^ idBits := by
  rcases mem_ids.1 hid with ⟨c, -, hid⟩ | hid
  · exact (mem_cubeIds.1 hid).1
  · exact hgroup.derived_lt id hid

theorem firstNamed_part (hwidth : ∀ k ∈ keys, (G k).InWidth idBits)
    (hapart : ClaimsApart (keys.map G) idBits) {k : K} (hk : k ∈ keys)
    (hid : id ∈ (G k).ids idBits) :
    ∃ c, firstNamed (named keys (partRules keys G existing idBits slots)) id =
      some (c, some k) := by
  have hwidth' : ∀ group ∈ keys.map G, group.InWidth idBits := by
    intro group hgroup
    obtain ⟨k, hk, rfl⟩ := List.mem_map.1 hgroup
    exact hwidth k hk
  obtain ⟨g, hg⟩ := List.mem_iff_getElem?.1 hk
  have hget : (keys.map G)[g]? = some (G k) := by rw [List.getElem?_map, hg, Option.map_some]
  obtain ⟨r, hr, hrg⟩ := portRules_routes existing slots hwidth' hapart
    g (G k) hget id hid
  refine ⟨r.rule, ?_⟩
  have hsame : firstRule (portRules (keys.map G) existing idBits slots) idBits id =
      (portRules (keys.map G) existing idBits slots).find? fun r =>
        id &&& r.rule.mask = r.rule.value := by
    refine List.find?_congr fun r hr => ?_
    rw [Bool.eq_iff_iff, decide_eq_true_eq, decide_eq_true_eq, mem_cubeIds,
      (portRules_valid hwidth' hr).2]
    exact and_iff_right (lt_of_mem_ids (hwidth k hk) hid)
  rw [firstNamed_named, partRules, ← hsame, hr, Option.map_some, hrg, hg]

theorem firstMatch_eq {rules : List PortRule}
    (hexisting : ∀ c ∈ existing, id &&& c.mask ≠ c.value) :
    firstMatch existing rules id =
      (rules.find? fun r => id &&& r.rule.mask = r.rule.value).map some := by
  have hnone : (existing.map fun c => (c, (none : Option PortRule))).find?
      (fun s => id &&& s.1.mask = s.1.value) = none := by
    rw [List.find?_eq_none]
    intro s hs
    obtain ⟨c, hc, rfl⟩ := List.mem_map.1 hs
    simpa using hexisting c hc
  rw [firstMatch, List.find?_append, hnone, Option.none_or, List.find?_map, Option.map_map]
  rfl

/-- **The rules of a port send each id to its group** just where the overlay's rules alone do not
match ids of the others first. -/
theorem sends_iff (ov : K → Bool) (masters : K → List Port) (existing : List Cube) (slots : ℕ)
    (hkeys : keys.Nodup) (hov : ∀ k ∈ keys, (G k).overlay = ov k)
    (hwidth : ∀ k ∈ keys, (G k).InWidth idBits)
    (hmasters : ∀ k k', ov k = ov k' → masters k = masters k' → k = k')
    (hdisj : ∀ k ∈ keys, ∀ k' ∈ keys, masters k ≠ masters k' →
      Disjoint ((G k).ids idBits) ((G k').ids idBits))
    (hexisting : ∀ c ∈ existing, ∀ k ∈ keys, ∀ id ∈ (G k).ids idBits, id &&& c.mask ≠ c.value) :
    SendsClaims (keys.map fun k => (G k, masters k)) existing idBits
        (slavePortRules (keys.map G) existing idBits slots) ↔
      OverlayApart (keys.map fun k => (G k, masters k)) existing idBits slots := by
  have hapart : ∀ b, ClaimsApart ((keys.filter (ov · = b)).map G) idBits := by
    intro b
    rw [ClaimsApart, List.map_map, List.pairwise_map]
    refine List.Pairwise.imp_of_mem ?_ (hkeys.filter _)
    intro k k' hk hk' hne
    obtain ⟨hk, hb⟩ := List.mem_filter.1 hk
    obtain ⟨hk', hb'⟩ := List.mem_filter.1 hk'
    rw [decide_eq_true_eq] at hb hb'
    exact hdisj k hk k' hk' fun h => hne (hmasters k k' (hb.trans hb'.symm) h)
  have hpart : ∀ (b : Bool) (ex : List Cube) {k : K}, k ∈ keys → ov k = b → ∀ {id : ℕ},
      id ∈ (G k).ids idBits → ∃ c, firstNamed (named (keys.filter (ov · = b))
        (partRules (keys.filter (ov · = b)) G ex idBits slots)) id = some (c, some k) :=
    fun b ex k hk hb _ hid => firstNamed_part (fun k hk => hwidth k (List.mem_filter.1 hk).1)
      (hapart b) (List.mem_filter.2 ⟨hk, decide_eq_true hb⟩) hid
  have hnamed := slavePortRules_named existing slots hov hwidth
  -- the overlay's groups alone
  have hclaims : ((keys.map fun k => (G k, masters k)).filter (·.1.overlay)) =
      (keys.filter (ov · = true)).map fun k => (G k, masters k) := by
    rw [List.filter_map]
    refine congrArg _ (List.filter_congr fun k hk => ?_)
    rw [Function.comp_apply, hov k hk]
    simp
  have halone : named (keys.filter (ov · = true))
      (slavePortRules ((keys.filter (ov · = true)).map G) existing idBits slots) =
      named (keys.filter (ov · = true))
        (partRules (keys.filter (ov · = true)) G existing idBits slots) := by
    have hov' : ∀ k ∈ keys.filter (ov · = true), (G k).overlay = ov k :=
      fun k hk => hov k (List.mem_filter.1 hk).1
    rw [slavePortRules_named existing slots hov' fun k hk => hwidth k (List.mem_filter.1 hk).1,
      List.filter_filter, List.filter_filter]
    have hnone : (keys.filter fun k => decide (ov k = false) && decide (ov k = true)) = [] := by
      rw [List.filter_eq_nil_iff]
      intro k _
      cases ov k <;> simp
    have hrest : ∀ ex : List Cube, partRules ([] : List K) G ex idBits slots = [] := by
      intro ex
      refine List.eq_nil_iff_forall_not_mem.2 fun r hr => ?_
      have hlt := (portRules_valid (fun group hgroup => absurd hgroup List.not_mem_nil) hr).1
      exact Nat.not_lt_zero _ hlt
    simp only [Bool.and_self, hnone, hrest]
    exact List.append_nil _
  rw [OverlayApart, hclaims, List.map_map, show (Prod.fst ∘ fun k => (G k, masters k)) = G from rfl]
  constructor
  · intro hsends own hown hfalse id hid r hr
    obtain ⟨k, hk, rfl⟩ := List.mem_map.1 hown
    rw [hov k hk] at hfalse
    obtain ⟨g, hg⟩ := List.mem_iff_getElem?.1 hk
    have hfirst : firstNamed (named (keys.filter (ov · = true))
        (partRules (keys.filter (ov · = true)) G existing idBits slots)) id =
        some (r.rule, (keys.filter (ov · = true))[r.group]?) := by
      rw [← halone, firstNamed_named, hr, Option.map_some]
    obtain ⟨r', hr', hgroup⟩ := hsends g _ (by rw [List.getElem?_map, hg, Option.map_some]) id hid
    rw [firstMatch_eq fun c hc => hexisting c hc k hk id hid, Option.map_eq_some_iff] at hr'
    obtain ⟨_, hfind, heq⟩ := hr'
    obtain rfl := Option.some.inj heq
    have hall := firstNamed_named keys (slavePortRules (keys.map G) existing idBits slots) id
    rw [hfind, hnamed, firstNamed_append, hfirst, Option.some_or, Option.map_some,
      Option.some.injEq, Prod.mk.injEq] at hall
    rw [List.getElem?_map, hall.2, Option.map_map]
    rcases hgroup with rfl | ⟨other, hother, -, hsame⟩
    · -- a rule of the overlay's is none of this group
      rw [hg] at hall
      have hmem := List.mem_of_getElem? hall.2
      rw [List.mem_filter, decide_eq_true_eq, hfalse] at hmem
      cases hmem.2
    · rw [List.getElem?_map, Option.map_eq_some_iff] at hother
      obtain ⟨k', hk', rfl⟩ := hother
      rw [hk', Option.map_some]
      exact congrArg some hsame
  · intro hover g own hown id hid
    rw [List.getElem?_map, Option.map_eq_some_iff] at hown
    obtain ⟨k, hg, rfl⟩ := hown
    have hk := List.mem_of_getElem? hg
    have hfirst : ∃ c k', firstNamed (named keys
        (slavePortRules (keys.map G) existing idBits slots)) id = some (c, some k') ∧
          (k' = k ∨ ov k' = true ∧ k' ∈ keys ∧ masters k' = masters k) := by
      rw [hnamed, firstNamed_append]
      by_cases hk' : ov k = true
      · obtain ⟨c, hc⟩ := hpart true existing hk hk' hid
        rw [hc]
        exact ⟨c, k, rfl, .inl rfl⟩
      · have hfalse : ov k = false := Bool.not_eq_true _ ▸ hk'
        cases hfind : firstNamed (named (keys.filter (ov · = true))
            (partRules (keys.filter (ov · = true)) G existing idBits slots)) id with
        | none =>
          obtain ⟨c, hc⟩ := hpart false (existing ++ (partRules (keys.filter (ov · = true)) G
            existing idBits slots).map (·.rule)) hk hfalse hid
          rw [Option.none_or, hc]
          exact ⟨c, k, rfl, .inl rfl⟩
        | some p =>
          rw [← halone, firstNamed_named, Option.map_eq_some_iff] at hfind
          obtain ⟨r, hr, rfl⟩ := hfind
          have hsame := hover _ (List.mem_map_of_mem hk) ((hov k hk).trans hfalse) id hid r hr
          rw [List.getElem?_map, Option.map_map, Option.map_eq_some_iff] at hsame
          obtain ⟨k', hget, hsame⟩ := hsame
          obtain ⟨hmem, hb⟩ := List.mem_filter.1 (List.mem_of_getElem? hget)
          rw [hget]
          exact ⟨r.rule, k', rfl, .inr ⟨of_decide_eq_true hb, hmem, hsame⟩⟩
    obtain ⟨c, k', hfind, hor⟩ := hfirst
    rw [firstNamed_named, Option.map_eq_some_iff] at hfind
    obtain ⟨r, hr, heq⟩ := hfind
    obtain ⟨-, hget⟩ := Prod.mk.inj heq
    refine ⟨r, ?_, ?_⟩
    · rw [firstMatch_eq fun c hc => hexisting c hc k hk id hid, hr, Option.map_some]
    · rcases hor with rfl | ⟨hb, hmem, hsame⟩
      · obtain ⟨hlt, hgetr⟩ := List.getElem?_eq_some_iff.1 hget
        obtain ⟨hlt', hgetg⟩ := List.getElem?_eq_some_iff.1 hg
        exact .inl ((List.Nodup.getElem_inj_iff hkeys).1 (hgetr.trans hgetg.symm))
      · refine .inr ⟨(G k', masters k'), ?_, (hov k' hmem).trans hb, hsame⟩
        rw [List.getElem?_map, hget, Option.map_some]

end Named

/-! ## The groups of a tile's flows -/

namespace TileFlows

variable {T : TileFlows} {slave : Port} {flows flows' : List SlaveFlow} {overlay : Bool}

theorem mem_groupClaims_ids (hlt : ∀ f ∈ flows, f.id < 2 ^ idBits) :
    id ∈ (T.groupClaims idBits flows overlay).ids idBits ↔
      ∃ f ∈ flows, ∃ c ∈ T.claim idBits f, id ∈ cubeIds c idBits := by
  have hsingle : ∀ {f : SlaveFlow}, f ∈ flows →
      (id ∈ cubeIds ⟨1 <<< idBits - 1, f.id⟩ idBits ↔ id = f.id) := by
    intro f hf
    rw [Nat.one_shiftLeft, mem_cubeIds_of_within (within_single (hlt f hf))]
    constructor
    · rintro ⟨hid, hmatch⟩
      exact (matches_single (hlt f hf) hid).1 hmatch
    · rintro rfl
      exact ⟨hlt f hf, (matches_single (hlt f hf) (hlt f hf)).2 rfl⟩
  simp only [mem_ids, groupClaims, mem_appendNew, List.not_mem_nil, false_or, List.mem_flatMap,
    List.mem_map, List.mem_filter, decide_eq_true_eq, claim]
  constructor
  · rintro (⟨c, ⟨f, hf, hc⟩, hid⟩ | ⟨f, ⟨hf, hnone⟩, rfl⟩)
    · exact ⟨f, hf, c, by rwa [if_neg (List.ne_nil_of_mem hc)], hid⟩
    · exact ⟨f, hf, ⟨1 <<< idBits - 1, f.id⟩, by simp [hnone], (hsingle hf).2 rfl⟩
  · rintro ⟨f, hf, c, hc, hid⟩
    split_ifs at hc with hnone
    · obtain rfl := List.mem_singleton.1 hc
      exact .inr ⟨f, ⟨hf, hnone⟩, ((hsingle hf).1 hid).symm⟩
    · exact .inl ⟨c, ⟨f, hf, hc⟩, hid⟩

theorem inWidth_groupClaims (hlt : ∀ f ∈ T.byFlow, f.id < 2 ^ idBits) (hflows : flows ⊆ T.byFlow) :
    (T.groupClaims idBits flows overlay).InWidth idBits := by
  have hstated : ∀ c ∈ (T.groupClaims idBits flows overlay).stated, ∃ f ∈ flows,
      ∃ mask ∈ T.pinnedMasks f.key, c = ⟨mask, f.id⟩ := by
    intro c hc
    simp only [groupClaims, mem_appendNew, List.not_mem_nil, false_or, List.mem_flatMap,
      statedCubes, List.mem_map, List.mem_filter] at hc
    obtain ⟨f, hf, mask, ⟨hmask, -⟩, rfl⟩ := hc
    exact ⟨f, hf, mask, hmask, rfl⟩
  refine ⟨fun c hc => ?_, fun c hc => ?_, fun id hid => ?_⟩
  · obtain ⟨f, hf, mask, -, rfl⟩ := hstated c hc
    exact hlt f (hflows hf)
  · obtain ⟨f, hf, mask, hmask, rfl⟩ := hstated c hc
    exact T.id_mask f (hflows hf) mask hmask
  · obtain ⟨f, hf, rfl⟩ := List.mem_map.1 hid
    exact hlt f (hflows (List.mem_filter.1 hf).1)

theorem groupClaims_alike (h : ∀ f, f ∈ flows ↔ f ∈ flows') {overlay' : Bool} :
    (T.groupClaims idBits flows overlay).Alike (T.groupClaims idBits flows' overlay') where
  stated := by
    refine (List.perm_ext_iff_of_nodup (nodup_appendNew List.nodup_nil)
      (nodup_appendNew List.nodup_nil)).2 fun c => ?_
    simp only [mem_appendNew, List.not_mem_nil, false_or, List.mem_flatMap, h]
  derived id := by
    simp only [groupClaims, List.mem_map, List.mem_filter, h]

/-- The claims of the flows with a key among some. -/
def keyed (T : TileFlows) (idBits : ℕ) (flows : List SlaveFlow) (key : RuleKey) : GroupClaims :=
  T.groupClaims idBits (flows.filter (·.ruleKey = key)) (ofLex key).1

/-- A flow joins the groups of flows that enter and leave alike. -/
theorem joins_iff {f g : SlaveFlow} (hf : f ∈ T.byFlow) (hg : g ∈ T.byFlow) :
    T.joins f g = true ↔ (f.slave, f.ruleKey) = (g.slave, g.ruleKey) := by
  have hpf := T.packetFlows_perm f hf
  have hpg := T.packetFlows_perm g hg
  have hnodup : ∀ h : SlaveFlow, h.masters.Nodup := fun h => h.sorted.imp ne_of_lt
  simp only [joins, Bool.and_eq_true, decide_eq_true_eq, List.all_eq_true, List.contains_iff_mem,
    SlaveFlow.ruleKey, Prod.mk.injEq, toLex_inj, and_assoc]
  refine and_congr_right fun _ => and_congr_right fun _ => ?_
  rw [hpf.length_eq, hpg.length_eq]
  simp only [hpg.mem_iff, hpf.mem_iff]
  constructor
  · rintro ⟨hlen, hsub⟩
    have hperm : g.masters.Perm f.masters :=
      (List.subperm_of_subset (hnodup g) hsub).perm_of_length_le hlen.le
    exact (List.Perm.eq_of_pairwise (fun a b _ _ hab hba => absurd hba hab.not_gt) g.sorted f.sorted
      hperm).symm
  · intro h
    rw [h]
    exact ⟨rfl, fun _ hp => hp⟩

/-- **Flows taken one by one** are grouped by where they enter and leave. -/
theorem slaveGroups_eq {slavePorts : List SlaveFlow} (hports : slavePorts ⊆ T.byFlow) :
    ∃ keys : List (Port × RuleKey), keys.Nodup ∧
      (∀ k, k ∈ keys ↔ ∃ f ∈ slavePorts, (f.slave, f.ruleKey) = k) ∧
      T.slaveGroups slavePorts =
        keys.map fun k => slavePorts.reverse.filter fun f => (f.slave, f.ruleKey) = k := by
  suffices h : ∀ l : List SlaveFlow, l ⊆ T.byFlow → ∃ keys : List (Port × RuleKey), keys.Nodup ∧
      (∀ k, k ∈ keys ↔ ∃ f ∈ l, (f.slave, f.ruleKey) = k) ∧
      l.foldl T.addToGroups [] =
        keys.map fun k => l.filter fun f => (f.slave, f.ruleKey) = k by
    obtain ⟨keys, hnodup, hmem, heq⟩ := h slavePorts.reverse fun f hf =>
      hports (List.mem_reverse.1 hf)
    exact ⟨keys, hnodup, fun k => by rw [hmem]; simp only [List.mem_reverse], heq⟩
  intro l
  induction l using List.reverseRecOn with
  | nil => exact fun _ => ⟨[], List.nodup_nil, by simp, rfl⟩
  | append_singleton l f ih =>
    intro hl
    have hf : f ∈ T.byFlow := hl (List.mem_append_right l (List.mem_singleton_self f))
    obtain ⟨keys, hnodup, hmem, heq⟩ := ih fun g hg => hl (List.mem_append_left _ hg)
    -- the head of a group has its key
    have hhead : ∀ k ∈ keys, ((l.filter fun g => (g.slave, g.ruleKey) = k).head?.any
        (T.joins · f)) = decide (k = (f.slave, f.ruleKey)) := by
      intro k hk
      obtain ⟨g, hg, hgk⟩ := (hmem k).1 hk
      obtain ⟨front, rest, hcons⟩ := List.exists_cons_of_ne_nil (List.ne_nil_of_mem
        (List.mem_filter.2 ⟨hg, decide_eq_true hgk⟩ :
          g ∈ l.filter fun g => (g.slave, g.ruleKey) = k))
      have hfront : front ∈ l.filter fun g => (g.slave, g.ruleKey) = k := by
        rw [hcons]
        exact List.mem_cons_self
      obtain ⟨hfl, hfk⟩ := List.mem_filter.1 hfront
      rw [hcons, List.head?_cons, Option.any_some, Bool.eq_iff_iff,
        joins_iff (hl (List.mem_append_left _ hfl)) hf, decide_eq_true_eq,
        of_decide_eq_true hfk]
    have hself : ([f].filter fun g => (g.slave, g.ruleKey) = (f.slave, f.ruleKey)) = [f] := by
      simp
    rw [List.foldl_append, List.foldl_cons, List.foldl_nil, heq, addToGroups]
    cases hfind : (keys.map fun k => l.filter fun g => (g.slave, g.ruleKey) = k).findIdx?
        fun group => group.head?.any (T.joins · f) with
    | none =>
      have hnew : (f.slave, f.ruleKey) ∉ keys := by
        intro hk
        have h := List.findIdx?_eq_none_iff.1 hfind _ (List.mem_map_of_mem hk)
        rw [hhead _ hk, decide_eq_false_iff_not] at h
        exact h rfl
      refine ⟨keys ++ [(f.slave, f.ruleKey)],
        List.nodup_append.2 ⟨hnodup, List.nodup_singleton _, ?_⟩, fun k => ?_, ?_⟩
      · rintro a ha b hb rfl
        exact hnew (List.mem_singleton.1 hb ▸ ha)
      · rw [List.mem_append, hmem, List.mem_singleton]
        constructor
        · rintro (⟨g, hg, rfl⟩ | rfl)
          · exact ⟨g, List.mem_append_left _ hg, rfl⟩
          · exact ⟨f, List.mem_append_right _ (List.mem_singleton_self f), rfl⟩
        · rintro ⟨g, hg, rfl⟩
          rcases List.mem_append.1 hg with hg | hg
          · exact .inl ⟨g, hg, rfl⟩
          · exact .inr (by rw [List.mem_singleton.1 hg])
      · rw [List.map_append, List.map_singleton]
        refine congrArg₂ (· ++ ·) (List.map_congr_left fun k hk => ?_) ?_
        · rw [List.filter_append, List.filter_cons_of_neg, List.filter_nil, List.append_nil]
          rw [decide_eq_true_eq]
          rintro rfl
          exact hnew hk
        · have hnone : (l.filter fun g => (g.slave, g.ruleKey) = (f.slave, f.ruleKey)) = [] := by
            rw [List.filter_eq_nil_iff]
            intro g hg h
            exact hnew ((hmem _).2 ⟨g, hg, of_decide_eq_true h⟩)
          rw [List.filter_append, hnone, hself, List.nil_append]
    | some i =>
      obtain ⟨hi, hjoins, -⟩ := List.findIdx?_eq_some_iff_getElem.1 hfind
      rw [List.length_map] at hi
      rw [List.getElem_map, hhead _ (List.getElem_mem hi), decide_eq_true_eq] at hjoins
      have hget : keys[i]? = some (f.slave, f.ruleKey) := by
        rw [List.getElem?_eq_getElem hi, hjoins]
      have hold := List.mem_of_getElem? hget
      refine ⟨keys, hnodup, fun k => ?_, modify_map hnodup hget ?_ fun k hk => ?_⟩
      · rw [hmem]
        constructor
        · rintro ⟨g, hg, rfl⟩
          exact ⟨g, List.mem_append_left _ hg, rfl⟩
        · rintro ⟨g, hg, rfl⟩
          rcases List.mem_append.1 hg with hg | hg
          · exact ⟨g, hg, rfl⟩
          · obtain rfl := List.mem_singleton.1 hg
            exact (hmem _).1 hold
      · rw [List.filter_append, hself]
      · rw [List.filter_append, List.filter_cons_of_neg, List.filter_nil, List.append_nil]
        rw [decide_eq_true_eq]
        exact fun h => hk h.symm

theorem emittedGroups_eq (idBits : ℕ) (slave : Port) {slavePorts : List SlaveFlow}
    (hports : slavePorts ⊆ T.byFlow) :
    ∃ keys : List RuleKey, keys.Nodup ∧
      (∀ k, k ∈ keys ↔ ∃ f ∈ slavePorts, f.slave = slave ∧ f.ruleKey = k) ∧
      T.emittedGroups idBits slavePorts slave = keys.map fun k =>
        (T.keyed idBits (slavePorts.reverse.filter (·.slave = slave)) k, (ofLex k).2) := by
  obtain ⟨keys, hnodup, hmem, heq⟩ := slaveGroups_eq hports
  have hhead : ∀ k ∈ keys, ∃ f,
      (slavePorts.reverse.filter fun f => (f.slave, f.ruleKey) = k).head? = some f ∧ (f.slave, f.ruleKey) = k := by
    intro k hk
    obtain ⟨g, hg, hgk⟩ := (hmem k).1 hk
    obtain ⟨front, rest, hcons⟩ := List.exists_cons_of_ne_nil (List.ne_nil_of_mem
      (List.mem_filter.2 ⟨List.mem_reverse.2 hg, decide_eq_true hgk⟩ :
        g ∈ slavePorts.reverse.filter fun g => (g.slave, g.ruleKey) = k))
    have hfront : front ∈ slavePorts.reverse.filter fun g => (g.slave, g.ruleKey) = k := by
      rw [hcons]
      exact List.mem_cons_self
    exact ⟨front, by rw [hcons, List.head?_cons], of_decide_eq_true (List.mem_filter.1 hfront).2⟩
  refine ⟨(keys.filter (·.1 = slave)).map (·.2), ?_, fun k => ?_, ?_⟩
  · refine List.Nodup.map_on ?_ (hnodup.filter _)
    intro a ha b hb h
    have ha := of_decide_eq_true (List.mem_filter.1 ha).2
    have hb := of_decide_eq_true (List.mem_filter.1 hb).2
    exact Prod.ext (ha.trans hb.symm) h
  · simp only [List.mem_map, List.mem_filter, decide_eq_true_eq, hmem]
    constructor
    · rintro ⟨_, ⟨⟨f, hf, rfl⟩, hs⟩, rfl⟩
      exact ⟨f, hf, hs, rfl⟩
    · rintro ⟨f, hf, hs, rfl⟩
      exact ⟨_, ⟨⟨f, hf, rfl⟩, hs⟩, rfl⟩
  · rw [emittedGroups, heq, List.filter_map, List.map_map, List.map_map]
    have hfilter : keys.filter ((fun group : List SlaveFlow => group.head?.any (·.slave = slave)) ∘
        fun k => slavePorts.reverse.filter fun f => (f.slave, f.ruleKey) = k) =
        keys.filter (·.1 = slave) := by
      refine List.filter_congr fun k hk => ?_
      obtain ⟨f, hf, rfl⟩ := hhead k hk
      rw [Function.comp_apply, hf, Option.any_some]
    rw [hfilter]
    refine List.map_congr_left fun k hk => ?_
    obtain ⟨hk, hs⟩ := List.mem_filter.1 hk
    obtain ⟨f, hf, rfl⟩ := hhead k hk
    have hfs : f.slave = slave := of_decide_eq_true hs
    simp only [Function.comp_apply]
    rw [hf, Option.any_some, Option.map_some, Option.getD_some, keyed, List.filter_filter]
    refine congrArg (fun l => (T.groupClaims idBits l f.isCtrlPkt, f.masters))
      (List.filter_congr fun g _ => ?_)
    simp only [hfs, Prod.mk.injEq, Bool.decide_and, Bool.and_comm]

theorem checkedGroups_eq (T : TileFlows) (idBits : ℕ) (slave : Port) (overlayOnly : Bool) :
    ∃ keys : List RuleKey, keys.Nodup ∧
      (∀ k, k ∈ keys ↔ ∃ f ∈ T.entering slave overlayOnly, f.ruleKey = k) ∧
      T.checkedGroups idBits slave overlayOnly = keys.map fun k =>
        (T.keyed idBits (T.entering slave overlayOnly) k, (ofLex k).2) := by
  refine ⟨((T.entering slave overlayOnly).map SlaveFlow.ruleKey).dedup.insertionSort (· ≤ ·),
    ((List.perm_insertionSort _ _).nodup_iff).2 (List.nodup_dedup _), fun k => ?_, rfl⟩
  rw [List.mem_insertionSort, List.mem_dedup, List.mem_map]

end TileFlows

/-! ## What is checked -/

theorem cubesIntersect_of_mem {a b : Cube} (ha : id &&& a.mask = a.value &&& a.mask)
    (hb : id &&& b.mask = b.value &&& b.mask) : cubesIntersect a b = true := by
  rw [cubesIntersect, decide_eq_true_eq]
  refine Nat.eq_of_testBit_eq fun i => ?_
  have hai := congrArg (Nat.testBit · i) ha
  have hbi := congrArg (Nat.testBit · i) hb
  simp only [Nat.testBit_and, Nat.testBit_xor, Nat.zero_testBit] at hai hbi ⊢
  cases ham : a.mask.testBit i with
  | false => simp
  | true =>
    cases hbm : b.mask.testBit i with
    | false => simp
    | true =>
      rw [ham, Bool.and_true, Bool.and_true] at hai
      rw [hbm, Bool.and_true, Bool.and_true] at hbi
      simp [← hai, ← hbi]

namespace RulePlan

variable {P : RulePlan} {T : TileFlows} {slave : Port}

theorem checkRules_none (h : P.checkRules = none) (hT : T ∈ P.tiles) :
    P.overlapFailure T = none ∧ P.overlayFailure T = none ∧ P.slotsFailure T = none := by
  rw [checkRules, Option.orElse_eq_none] at h
  have htile := List.findSome?_eq_none_iff.1 h.2 T hT
  rw [Option.orElse_eq_none, Option.orElse_eq_none, Option.orElse_eq_none] at htile
  exact ⟨htile.1, htile.2.2.1, htile.2.2.2⟩

/-- **Flows that leave by different ports claim no id in common.** -/
theorem checked_disjoint (h : P.overlapFailure T = none) {f g : SlaveFlow} (hf : f ∈ T.byFlow)
    (hg : g ∈ T.byFlow) (hslave : f.slave = g.slave) (hmasters : f.masters ≠ g.masters)
    {own other : Cube} (hown : own ∈ T.claim P.idBits f) (hother : other ∈ T.claim P.idBits g) :
    ¬(id ∈ cubeIds own P.idBits ∧ id ∈ cubeIds other P.idBits) := by
  rintro ⟨hid, hid'⟩
  have hpair : ∀ {a b : SlaveFlow}, a.slave = b.slave → a.masters ≠ b.masters →
      ∀ {c d : Cube}, c ∈ T.claim P.idBits a → d ∈ T.claim P.idBits b →
        id ∈ cubeIds c P.idBits → id ∈ cubeIds d P.idBits → ¬((if a.slave ≠ b.slave ∨
          a.masters = b.masters then none else P.overlap T a b) = none) := by
    intro a b hs hm c d hc hd hidc hidd hnone
    rw [if_neg (not_or.2 ⟨not_not.2 hs, hm⟩), overlap] at hnone
    have hfind := Option.map_eq_none_iff.1 (List.findSome?_eq_none_iff.1 hnone c hc)
    exact List.find?_eq_none.1 hfind d hd
      (cubesIntersect_of_mem (mem_cubeIds.1 hidc).2 (mem_cubeIds.1 hidd).2)
  rw [overlapFailure, findSome?_tails, List.pairwise_iff_getElem] at h
  obtain ⟨i, hi, rfl⟩ := List.getElem_of_mem hf
  obtain ⟨j, hj, rfl⟩ := List.getElem_of_mem hg
  have hnone : ∀ {a b : SlaveFlow} {F : Cube × Cube → String},
      (if a.slave ≠ b.slave ∨ a.masters = b.masters then none
        else (P.overlap T a b).map F) = none →
      (if a.slave ≠ b.slave ∨ a.masters = b.masters then none else P.overlap T a b) = none := by
    intro a b F h
    split_ifs at h ⊢
    · rfl
    · exact Option.map_eq_none_iff.1 h
  rcases lt_trichotomy i j with hlt | rfl | hlt
  · exact hpair hslave hmasters hown hother hid hid' (hnone (h i j hi hj hlt))
  · exact hmasters rfl
  · exact hpair hslave.symm hmasters.symm hother hown hid' hid (hnone (h j i hj hi hlt))

/-- The groups of the flows entering on a port claim different ids where they leave differently. -/
theorem keyed_disjoint (hT : T ∈ P.tiles) (h : P.overlapFailure T = none) {flows : List SlaveFlow}
    (hflows : ∀ f ∈ flows, f ∈ T.byFlow ∧ f.slave = slave) {k k' : RuleKey}
    (hne : (ofLex k).2 ≠ (ofLex k').2) :
    Disjoint ((T.keyed P.idBits flows k).ids P.idBits)
      ((T.keyed P.idBits flows k').ids P.idBits) := by
  have hlt : ∀ k : RuleKey, ∀ f ∈ flows.filter (·.ruleKey = k), f.id < 2 ^ P.idBits :=
    fun k f hf => P.id_lt T hT f (hflows f (List.mem_filter.1 hf).1).1
  rw [Finset.disjoint_left]
  intro id hid hid'
  obtain ⟨f, hf, c, hc, hidc⟩ := (TileFlows.mem_groupClaims_ids (hlt k)).1 hid
  obtain ⟨g, hg, d, hd, hidd⟩ := (TileFlows.mem_groupClaims_ids (hlt k')).1 hid'
  obtain ⟨hf, hfk⟩ := List.mem_filter.1 hf
  obtain ⟨hg, hgk⟩ := List.mem_filter.1 hg
  refine checked_disjoint h (hflows f hf).1 (hflows g hg).1
    ((hflows f hf).2.trans (hflows g hg).2.symm) (fun heq => hne ?_) hc hd ⟨hidc, hidd⟩
  rw [← of_decide_eq_true hfk, ← of_decide_eq_true hgk]
  exact heq

theorem keyed_inWidth (hT : T ∈ P.tiles) {flows : List SlaveFlow} (hflows : flows ⊆ T.byFlow)
    (k : RuleKey) : (T.keyed P.idBits flows k).InWidth P.idBits :=
  TileFlows.inWidth_groupClaims (P.id_lt T hT) fun _ hf => hflows (List.mem_filter.1 hf).1

theorem keyed_apart (hT : T ∈ P.tiles) (h : P.overlapFailure T = none) {flows : List SlaveFlow}
    (hflows : ∀ f ∈ flows, f ∈ T.byFlow ∧ f.slave = slave) {keys : List RuleKey}
    (hkeys : keys.Nodup) (b : Bool) :
    ClaimsApart ((keys.filter fun k => (ofLex k).1 = b).map (T.keyed P.idBits flows)) P.idBits := by
  rw [ClaimsApart, List.map_map, List.pairwise_map]
  refine List.Pairwise.imp_of_mem ?_ (hkeys.filter _)
  intro k k' hk hk' hne
  refine keyed_disjoint hT h hflows fun heq => hne ?_
  have hb := of_decide_eq_true (List.mem_filter.1 hk).2
  have hb' := of_decide_eq_true (List.mem_filter.1 hk').2
  exact ofLex.injective (Prod.ext (hb.trans hb'.symm) heq)

/-- **The rules checked and those emitted** are the same ones, by the keys of the groups. -/
theorem checked_perm (hT : T ∈ P.tiles) (h : P.overlapFailure T = none)
    (flows flows' : List SlaveFlow) (hflows : ∀ f ∈ flows, f ∈ T.byFlow ∧ f.slave = slave)
    {keys keys' : List RuleKey} (hkeys : keys.Nodup) (hperm : keys.Perm keys')
    (hsame : ∀ k ∈ keys, ∀ f, f.ruleKey = k → (f ∈ flows ↔ f ∈ flows'))
    (hflows' : flows' ⊆ T.byFlow) (existing : List Cube) :
    (named keys' (slavePortRules (keys'.map (T.keyed P.idBits flows')) existing P.idBits
      P.numSlaveSlots)).Perm (named keys (slavePortRules (keys.map (T.keyed P.idBits flows))
        existing P.idBits P.numSlaveSlots)) := by
  refine named_perm (fun k => (ofLex k).1) hkeys hperm (fun _ _ => rfl) (fun _ _ => rfl)
    (fun k hk => TileFlows.groupClaims_alike fun f => ?_)
    (fun k _ => keyed_inWidth hT (fun f hf => (hflows f hf).1) k)
    (fun k _ => keyed_inWidth hT hflows' k) (keyed_apart hT h hflows hkeys)
  rw [List.mem_filter, List.mem_filter, decide_eq_true_eq]
  constructor
  · rintro ⟨hf, hfk⟩
    exact ⟨(hsame k hk f hfk).1 hf, hfk⟩
  · rintro ⟨hf, hfk⟩
    exact ⟨(hsame k hk f hfk).2 hf, hfk⟩

theorem mem_entering {f : SlaveFlow} {overlayOnly : Bool} :
    f ∈ T.entering slave overlayOnly ↔
      f ∈ T.byFlow ∧ f.slave = slave ∧ (overlayOnly = true → f.isCtrlPkt = true) := by
  rw [TileFlows.entering, List.mem_filter]
  cases overlayOnly <;> simp

theorem length_emittedRules_le (slave : Port) (hT : T ∈ P.tiles) (hcheck : P.checkRules = none)
    {slavePorts : List SlaveFlow} (hports : ∀ f, f ∈ slavePorts ↔ f ∈ T.byFlow) :
    (P.emittedRules T slavePorts slave).length ≤ P.numSlaveSlots - (T.existing slave).length := by
  obtain ⟨hoverlap, -, hslots⟩ := checkRules_none hcheck hT
  have hsub : slavePorts ⊆ T.byFlow := fun f hf => (hports f).1 hf
  obtain ⟨keys, hnodup, hmem, heq⟩ := TileFlows.checkedGroups_eq T P.idBits slave false
  obtain ⟨keys', hnodup', hmem', heq'⟩ :=
    TileFlows.emittedGroups_eq P.idBits slave hsub
  have hperm : keys.Perm keys' := (List.perm_ext_iff_of_nodup hnodup hnodup').2 fun k => by
    simp only [hmem, hmem', mem_entering, hports, Bool.false_eq_true, false_imp_iff, and_true,
      and_assoc]
  have hrules := checked_perm hT hoverlap (T.entering slave false)
    (slavePorts.reverse.filter (·.slave = slave))
    (fun f hf => ⟨(mem_entering.1 hf).1, (mem_entering.1 hf).2.1⟩) hnodup hperm
    (fun k _ f _ => by simp [mem_entering, hports])
    (fun f hf => hsub (List.mem_reverse.1 (List.mem_filter.1 hf).1)) (T.existing slave)
  have hlen : (P.emittedRules T slavePorts slave).length = (P.newRules T slave false).length := by
    have h := hrules.length_eq
    rw [named, named, List.length_map, List.length_map] at h
    rw [emittedRules, newRules, heq, heq', List.map_map, List.map_map]
    exact h
  rw [hlen]
  by_cases hslave : slave ∈ slaves T
  · have hfits := List.findSome?_eq_none_iff.1 hslots slave hslave
    simp only at hfits
    split_ifs at hfits with hle
    omega
  · -- no flow enters there
    have hnone : keys = [] := by
      refine List.eq_nil_iff_forall_not_mem.2 fun k hk => hslave ?_
      obtain ⟨f, hf, -⟩ := (hmem k).1 hk
      rw [slaves, List.mem_insertionSort, List.mem_dedup, List.mem_map]
      exact ⟨f, (mem_entering.1 hf).1, (mem_entering.1 hf).2.1⟩
    rw [newRules, heq, hnone]
    exact Nat.zero_le _

/-- **A pinned overlay is apart**: what is checked of its rules is what they are emitted as. -/
theorem overlayApart_of_pinned (slave : Port) (hT : T ∈ P.tiles) (hcheck : P.checkRules = none)
    (hpinned : P.pinned = true) {slavePorts : List SlaveFlow}
    (hports : ∀ f, f ∈ slavePorts ↔ f ∈ T.byFlow) :
    OverlayApart (T.emittedGroups P.idBits slavePorts slave) (T.existing slave) P.idBits
      P.numSlaveSlots := by
  obtain ⟨hoverlap, hoverlay, -⟩ := checkRules_none hcheck hT
  have hsub : slavePorts ⊆ T.byFlow := fun f hf => (hports f).1 hf
  obtain ⟨keys, hnodup, hmem, heq⟩ := TileFlows.checkedGroups_eq T P.idBits slave true
  obtain ⟨keys', hnodup', hmem', heq'⟩ :=
    TileFlows.emittedGroups_eq P.idBits slave hsub
  have hperm : keys.Perm (keys'.filter fun k => (ofLex k).1 = true) := by
    refine (List.perm_ext_iff_of_nodup hnodup (hnodup'.filter _)).2 fun k => ?_
    simp only [hmem, List.mem_filter, hmem', mem_entering, hports, decide_eq_true_eq,
      true_imp_iff]
    constructor
    · rintro ⟨f, ⟨hf, hs, hb⟩, rfl⟩
      exact ⟨⟨f, hf, hs, rfl⟩, hb⟩
    · rintro ⟨⟨f, hf, hs, rfl⟩, hb⟩
      exact ⟨f, ⟨hf, hs, hb⟩, rfl⟩
  have hkey : ∀ k ∈ keys, (ofLex k).1 = true := fun k hk =>
    of_decide_eq_true (List.mem_filter.1 (hperm.subset hk)).2
  have hrules := checked_perm hT hoverlap (T.entering slave true)
    (slavePorts.reverse.filter (·.slave = slave))
    (fun f hf => ⟨(mem_entering.1 hf).1, (mem_entering.1 hf).2.1⟩) hnodup hperm
    (fun k hk f hfk => by
      have hb : f.isCtrlPkt = true := by
        have h := hkey k hk
        rw [← hfk] at h
        exact h
      simp [mem_entering, hports, hb])
    (fun f hf => hsub (List.mem_reverse.1 (List.mem_filter.1 hf).1)) (T.existing slave)
  have hclaims : ((T.emittedGroups P.idBits slavePorts slave).filter (·.1.overlay)) =
      (keys'.filter fun k => (ofLex k).1 = true).map fun k =>
        (T.keyed P.idBits (slavePorts.reverse.filter (·.slave = slave)) k, (ofLex k).2) := by
    rw [heq', List.filter_map]
    refine congrArg _ (List.filter_congr fun k _ => ?_)
    exact Bool.decide_eq_true.symm
  intro own hown hfalse id hid r hr
  rw [hclaims, List.map_map] at hr
  rw [heq'] at hown
  obtain ⟨k, hk, rfl⟩ := List.mem_map.1 hown
  obtain ⟨f, hf, c, hc, hidc⟩ := (TileFlows.mem_groupClaims_ids fun f hf => P.id_lt T hT f (hsub
    (List.mem_reverse.1 (List.mem_filter.1 (List.mem_filter.1 hf).1).1))).1 hid
  obtain ⟨hin, hfk⟩ := List.mem_filter.1 hf
  obtain ⟨hin, hfs⟩ := List.mem_filter.1 hin
  have hflow : f ∈ T.byFlow := (hports f).1 (List.mem_reverse.1 hin)
  have hfs : f.slave = slave := of_decide_eq_true hfs
  obtain rfl : f.ruleKey = k := of_decide_eq_true hfk
  -- the rule is one of those checked
  have hin : (r.rule, (keys'.filter fun k => (ofLex k).1 = true)[r.group]?) ∈ named keys
      (slavePortRules (keys.map (T.keyed P.idBits (T.entering slave true))) (T.existing slave)
        P.idBits P.numSlaveSlots) :=
    hrules.subset (List.mem_map_of_mem (List.mem_of_find?_eq_some hr))
  obtain ⟨r', hr', hsame⟩ := List.mem_map.1 hin
  obtain ⟨hrule, hget⟩ := Prod.mk.inj hsame
  have hnew : r' ∈ P.newRules T slave true := by
    rw [newRules, heq, List.map_map]
    exact hr'
  have hslave : slave ∈ slaves T := by
    rw [slaves, List.mem_insertionSort, List.mem_dedup, List.mem_map]
    exact ⟨f, hflow, hfs⟩
  rw [overlayFailure, hpinned, if_pos rfl] at hoverlay
  have hnone := List.findSome?_eq_none_iff.1
    (List.findSome?_eq_none_iff.1 hoverlay slave hslave) f hflow
  have hctrl : f.isCtrlPkt = false := hfalse
  rw [if_neg (not_or.2 ⟨not_not.2 hfs, by rw [hctrl]; exact Bool.false_ne_true⟩),
    Option.map_eq_none_iff, overlayMatch] at hnone
  have hfree := List.find?_eq_none.1 (List.findSome?_eq_none_iff.1 hnone c hc) r' hnew
  have hmatch : id &&& r.rule.mask = r.rule.value := by simpa using List.find?_some hr
  have hmeet : cubesIntersect c r'.rule = true := by
    refine cubesIntersect_of_mem (mem_cubeIds.1 hidc).2 ?_
    rw [hrule, ← hmatch, Nat.and_assoc, Nat.and_self]
  rw [hmeet, Bool.true_and, decide_eq_true_eq, not_not, heq, List.getElem?_map, hget] at hfree
  rw [Option.map_map] at hfree
  rw [hclaims, List.getElem?_map, Option.map_map]
  exact hfree

/-- **Where the rules send each id a group claims**: the rules emitted for a slave port, after those
it has already, send it to that group, or to one of the overlay's that leaves by the same master
ports, and they fit the free slots, if and only if the overlay is pinned, or no rule its groups take
alone matches first an id of another group that leaves by other ports. -/
theorem emittedRules_sends_iff (P : RulePlan) {T : TileFlows} (hT : T ∈ P.tiles)
    (hcheck : P.checkRules = none) {slavePorts : List SlaveFlow}
    (hports : ∀ f, f ∈ slavePorts ↔ f ∈ T.byFlow) (slave : Port)
    (hexisting : ∀ c ∈ T.existing slave, ∀ own ∈ T.emittedGroups P.idBits slavePorts slave,
      ∀ id ∈ own.1.ids P.idBits, id &&& c.mask ≠ c.value) :
    (SendsClaims (T.emittedGroups P.idBits slavePorts slave) (T.existing slave) P.idBits
        (P.emittedRules T slavePorts slave) ∧
      (P.emittedRules T slavePorts slave).length ≤
        P.numSlaveSlots - (T.existing slave).length) ↔
      (P.pinned = true ∨ OverlayApart (T.emittedGroups P.idBits slavePorts slave)
        (T.existing slave) P.idBits P.numSlaveSlots) := by
  have hfits := length_emittedRules_le slave hT hcheck hports
  have hpinned := overlayApart_of_pinned slave hT hcheck
  obtain ⟨hoverlap, -, -⟩ := checkRules_none hcheck hT
  have hsub : slavePorts ⊆ T.byFlow := fun f hf => (hports f).mp hf
  obtain ⟨keys, hnodup, hmem, heq⟩ :=
    TileFlows.emittedGroups_eq P.idBits slave hsub
  have hflows : ∀ f ∈ slavePorts.reverse.filter (·.slave = slave),
      f ∈ T.byFlow ∧ f.slave = slave := by
    intro f hf
    obtain ⟨hf, hs⟩ := List.mem_filter.mp hf
    exact ⟨hsub (List.mem_reverse.mp hf), of_decide_eq_true hs⟩
  have hiff := sends_iff (fun k => (ofLex k).1) (fun k => (ofLex k).2) (T.existing slave)
    P.numSlaveSlots hnodup
    (G := T.keyed P.idBits (slavePorts.reverse.filter (·.slave = slave))) (fun _ _ => rfl)
    (fun k _ => keyed_inWidth hT (fun f hf => (hflows f hf).1) k)
    (fun k k' h₁ h₂ => ofLex.injective (Prod.ext h₁ h₂))
    (fun k _ k' _ hne => keyed_disjoint hT hoverlap hflows hne)
    (fun c hc k hk => hexisting c hc _ (by rw [heq]; exact List.mem_map_of_mem hk))
  rw [← heq] at hiff
  have hrules : P.emittedRules T slavePorts slave = slavePortRules (keys.map
      (T.keyed P.idBits (slavePorts.reverse.filter (·.slave = slave)))) (T.existing slave) P.idBits
        P.numSlaveSlots := by
    rw [emittedRules, heq, List.map_map]
    rfl
  rw [← hrules] at hiff
  constructor
  · rintro ⟨hsends, -⟩
    exact .inr (hiff.mp hsends)
  · intro h
    refine ⟨hiff.mpr ?_, hfits⟩
    rcases h with h | h
    exacts [hpinned h hports, h]

/-- Two packets of the overlay, with ids 0 and 3, and one of another flow between them. -/
def between : TileFlows where
  tile := ⟨1, 2⟩
  byFlow := [⟨⟨.South, 0⟩, 0, [⟨.DMA, 0⟩], true, by decide, by decide⟩,
    ⟨⟨.South, 0⟩, 1, [⟨.DMA, 1⟩], false, by decide, by decide⟩,
    ⟨⟨.South, 0⟩, 3, [⟨.DMA, 0⟩], true, by decide, by decide⟩]
  packetFlows k := if k.id = 1 then [⟨.DMA, 1⟩] else [⟨.DMA, 0⟩]
  pinnedMasks _ := []
  slaveFlowSources := []
  existing _ := []
  sorted := by decide
  packetFlows_perm := by decide
  id_mask := by decide

/-- An overlay that is not pinned. -/
def unpinned : RulePlan := ⟨5, 4, false, [between], by decide⟩

/-- One rule for ids 0 and 3 goes first, and matches id 1. -/
theorem unpinned_misroutes : unpinned.checkRules = none ∧
    ¬SendsClaims (between.emittedGroups 5 between.byFlow ⟨.South, 0⟩) [] 5
      (unpinned.emittedRules between between.byFlow ⟨.South, 0⟩) := by
  refine ⟨by decide +kernel, fun h => ?_⟩
  have hgroups : between.emittedGroups 5 between.byFlow ⟨.South, 0⟩ =
      [(⟨[], [3, 0], true⟩, [⟨.DMA, 0⟩]), (⟨[], [1], false⟩, [⟨.DMA, 1⟩])] := rfl
  have hrules : unpinned.emittedRules between between.byFlow ⟨.South, 0⟩ =
      [⟨⟨28, 0⟩, 0⟩, ⟨⟨31, 1⟩, 1⟩] := by decide +kernel
  rw [hgroups, hrules] at h
  obtain ⟨r, hr, hor⟩ := h 1 _ rfl 1 (by decide)
  have hfirst : firstMatch [] [⟨⟨28, 0⟩, 0⟩, ⟨⟨31, 1⟩, 1⟩] 1 = some (some ⟨⟨28, 0⟩, 0⟩) := by decide
  rw [hfirst] at hr
  obtain rfl := Option.some.inj (Option.some.inj hr)
  rcases hor with h | ⟨other, hother, -, hsame⟩
  · cases h
  · obtain rfl := Option.some.inj hother
    exact absurd hsame (by decide)

/-- So the overlay is not apart there. -/
theorem unpinned_sends_iff :
    (SendsClaims (between.emittedGroups 5 between.byFlow ⟨.South, 0⟩) [] 5
        (unpinned.emittedRules between between.byFlow ⟨.South, 0⟩) ∧
      (unpinned.emittedRules between between.byFlow ⟨.South, 0⟩).length ≤ 4) ↔
      (unpinned.pinned = true ∨ OverlayApart (between.emittedGroups 5 between.byFlow ⟨.South, 0⟩)
        [] 5 4) :=
  emittedRules_sends_iff unpinned (List.mem_singleton_self between) (by decide +kernel)
    (fun _ => Iff.rfl) ⟨.South, 0⟩ fun c hc => absurd hc List.not_mem_nil

end RulePlan

end MlirAie.Route
