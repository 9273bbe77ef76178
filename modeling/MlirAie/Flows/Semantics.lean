import MlirAie.Flows.Connectivity

/-!
# What the switches do with a packet

A circuit connection forwards every packet; a slave port hands a packet to its first rule that
matches the id, which forwards it to all master sets of the rule's amsel.

* `Device.NoCycle`: no route leads back to where it was;
* **`Connections.mem_followed`**: the hops the traversal follows, rule by rule;
* **`Connections.forwards_of_followed`**, **`Connections.exists_followed`**: where the rules are
  direct, the traversal follows what the switch does.
-/

namespace MlirAie.Flows

open Lib Route

def PacketRule.Matches (r : PacketRule) (id : ℕ) : Prop := id &&& r.mask = r.value

instance (r : PacketRule) (id : ℕ) : Decidable (r.Matches id) :=
  inferInstanceAs (Decidable (_ = _))

def PlacedRule.mv (r : PlacedRule) : MaskValue := ⟨r.rule.mask, r.rule.value⟩

namespace Connections

variable (c : Connections)

def firstMatch (source : Port) (id : ℕ) : Option PlacedRule :=
  (c.portRules source).find? fun r => decide (r.rule.Matches id)

/-- A packet with the id that enters on `source` leaves by a port, by a packet rule or not. -/
inductive Forwards (source : Port) (id : ℕ) : Port → Bool → Prop
  | connect {out : Port} (h : (source, out) ∈ c.connects) : Forwards source id out false
  | rule {r : PlacedRule} {m : MasterSet} (hr : c.firstMatch source id = some r)
      (hm : m ∈ c.masterSets) (ha : r.rule.amsel ∈ m.amsels) : Forwards source id m.dest true

def HasMaster (r : PlacedRule) : Prop := ∃ m ∈ c.masterSets, r.rule.amsel ∈ m.amsels

/-- The rule has a master set, and ids of the claim agree with it. -/
def Takes (mv : MaskValue) (r : PlacedRule) : Prop := c.HasMaster r ∧ mv.accepts r.mv = true

/-- The rule is followed for a claim: it has a master set, ids of the claim agree with it on the
bits of its mask that the claim knows, and no such rule before it takes every id of the claim. -/
def FollowedRule (mv : MaskValue) (rs : List PlacedRule) (r : PlacedRule) : Prop :=
  ∃ before after, rs = before ++ r :: after ∧ c.Takes mv r ∧
    ∀ p ∈ before, c.Takes mv p → mv.decided p.mv = false

/-- The rules the traversal follows for an id are its first match. -/
def Direct (idMask id : ℕ) (source : Port) : Prop :=
  ∀ r, c.FollowedRule ⟨idMask, id⟩ (c.portRules source) r → c.firstMatch source id = some r

end Connections

namespace Device

variable (D : Device)

/-- A packet moves on from one port to the next, noting whether a packet rule took it. -/
inductive Moves (id : ℕ) : PortConnection × Bool → PortConnection × Bool → Prop
  | hop {n next : PortConnection} {b packet : Bool} {c : Connections} {out : Port}
      (hc : D.connections n.op = some c) (hout : c.Forwards n.port id out packet)
      (hwire : D.getConnectionThroughWire n.op out = some next) :
      Moves id (n, b) (next, b || packet)

/-- A packet that starts at a port comes to another. -/
def ArrivesFrom (id : ℕ) (start n : PortConnection) (b : Bool) : Prop :=
  Relation.ReflTransGen (D.Moves id) (start, false) (n, b)

/-- A packet injected at a tile's port comes to a port. -/
def Arrives (id tile : ℕ) (port : Port) (n : PortConnection) (b : Bool) : Prop :=
  ∃ start, D.getConnectionThroughWire tile port = some start ∧ D.ArrivesFrom id start n b

/-- A packet at a port ends there or, under partial recovery, at an output no wire continues. -/
def Ends (keepPartialFlows : Bool) (id : ℕ) (n : PortConnection) (b : Bool) (d : PortConnection)
    (b' : Bool) : Prop :=
  (D.isFlowEndPoint n.op = true ∧ d = n ∧ b' = b) ∨
    (keepPartialFlows = true ∧ ∃ c out packet, D.connections n.op = some c ∧
      c.Forwards n.port id out packet ∧ D.getConnectionThroughWire n.op out = none ∧
        d = ⟨n.op, out⟩ ∧ b' = (b || packet))

/-- A packet injected at a tile's port reaches a destination, by packet rules or circuits alone. -/
def Reaches (keepPartialFlows : Bool) (id tile : ℕ) (port : Port) (d : PortConnection)
    (b : Bool) : Prop :=
  ∃ n b', D.Arrives id tile port n b' ∧ D.Ends keepPartialFlows id n b' d b

def Hop (n next : PortConnection) : Prop :=
  ∃ c, D.connections n.op = some c ∧ ∃ out ∈ c.getConnectionsThroughSwitchbox n.op n.port,
    D.getConnectionThroughWire n.op out.port = some next

/-- No configured route leads back to where it was. -/
def NoCycle : Prop := ∀ n, ¬ Relation.TransGen D.Hop n n

/-- The rules of a port are direct for an id. -/
def DirectAt (idMask id : ℕ) (n : PortConnection) : Prop :=
  ∀ c, D.connections n.op = some c → c.Direct idMask id n.port

/-- Wherever a packet from the port comes to, the rules the traversal follows for its id are its
first match. -/
def NoFallThrough (idMask tile : ℕ) (port : Port) : Prop :=
  ∀ id ≤ idMask, ∀ n b, D.Arrives id tile port n b → D.DirectAt idMask id n

end Device

/-! ## The hops a traversal follows -/

section Followed

variable {mv : MaskValue} {taken : Option HopOp} {ns rest : List PortMaskValue}

theorem followed_skip {b : HopOp} (h : ∀ n ∈ ns, n.rule ≠ some b) :
    followed mv (some b) (ns ++ rest) = followed mv (some b) rest := by
  induction ns with
  | nil => rfl
  | cons n ns ih =>
    rw [List.cons_append, followed, if_pos ⟨Option.some_ne_none b, h n List.mem_cons_self⟩]
    exact ih fun m hm => h m (List.mem_cons_of_mem n hm)

theorem followed_reject (h : ∀ n ∈ ns, mv.accepts n.mv = false) :
    followed mv taken (ns ++ rest) = followed mv taken rest := by
  induction ns with
  | nil => rfl
  | cons n ns ih =>
    rw [List.cons_append, followed, h n List.mem_cons_self]
    simp only [Bool.not_false, ↓reduceIte, ite_self]
    exact ih fun m hm => h m (List.mem_cons_of_mem n hm)

/-- Hops that leave the later rules open. -/
theorem followed_open (h : ∀ n ∈ ns, mv.accepts n.mv = true ∧
    (n.rule = none ∨ mv.decided n.mv = false)) :
    followed mv none (ns ++ rest) = ns ++ followed mv none rest := by
  induction ns with
  | nil => rfl
  | cons n ns ih =>
    obtain ⟨haccepts, hopen⟩ := h n List.mem_cons_self
    have hnot : ¬ (n.rule ≠ none ∧ mv.decided n.mv = true) := by
      rintro ⟨hrule, hdecided⟩
      rcases hopen with hopen | hopen
      · exact hrule hopen
      · rw [hopen] at hdecided
        cases hdecided
    rw [List.cons_append, followed, haccepts, if_neg fun hn => hn.1 rfl]
    simp only [Bool.not_true, Bool.false_eq_true, ↓reduceIte, if_neg hnot, List.cons_append,
      ih fun m hm => h m (List.mem_cons_of_mem n hm)]

/-- Hops of a rule that takes every id left. -/
theorem followed_close {b : HopOp} (htaken : taken = none ∨ taken = some b) (hne : ns ≠ [])
    (h : ∀ n ∈ ns, n.rule = some b ∧ mv.accepts n.mv = true ∧ mv.decided n.mv = true) :
    followed mv taken (ns ++ rest) = ns ++ followed mv (some b) rest := by
  induction ns generalizing taken with
  | nil => exact absurd rfl hne
  | cons n ns ih =>
    obtain ⟨hrule, haccepts, hdecided⟩ := h n List.mem_cons_self
    have hnot : ¬ (taken ≠ none ∧ n.rule ≠ taken) := by
      rintro ⟨hn, hr⟩
      rcases htaken with htaken | htaken
      · exact hn htaken
      · exact hr (hrule.trans htaken.symm)
    rw [List.cons_append, followed, if_neg hnot, haccepts]
    simp only [Bool.not_true, Bool.false_eq_true, ↓reduceIte, hrule, ne_eq, reduceCtorEq,
      not_false_eq_true, hdecided, and_self, List.cons_append, List.cons.injEq, true_and]
    cases ns with
    | nil => rfl
    | cons m ns =>
      exact ih (.inr rfl) (List.cons_ne_nil m ns) fun m' hm => h m' (List.mem_cons_of_mem n hm)

end Followed

namespace Connections

variable {c : Connections} {op : ℕ} {source : Port} {mv : MaskValue}

theorem mem_ruleOutputs {r : PlacedRule} {n : PortMaskValue} (h : n ∈ c.ruleOutputs op r) :
    n.rule = some (.rule op r.i r.j) ∧ n.mv = r.mv ∧
      ∃ m ∈ c.masterSets, r.rule.amsel ∈ m.amsels ∧ n.port = m.dest := by
  obtain ⟨⟨m, k⟩, hm, h⟩ := List.mem_flatMap.1 h
  obtain ⟨a, ha, rfl⟩ := List.mem_map.1 h
  obtain ⟨ha, heq⟩ := List.mem_filter.1 ha
  rw [decide_eq_true_eq] at heq
  exact ⟨rfl, rfl, m, List.fst_mem_of_mem_zipIdx hm, heq ▸ ha, rfl⟩

theorem exists_mem_zipIdx {α : Type*} {l : List α} {a : α} (h : a ∈ l) :
    ∃ i, (a, i) ∈ l.zipIdx := by
  obtain ⟨i, hi⟩ := List.mem_iff_getElem?.1 h
  exact ⟨i, List.mk_mem_zipIdx_iff_getElem?.2 hi⟩

theorem exists_mem_ruleOutputs {r : PlacedRule} {m : MasterSet} (op : ℕ)
    (hm : m ∈ c.masterSets) (ha : r.rule.amsel ∈ m.amsels) :
    ∃ n ∈ c.ruleOutputs op r, n.port = m.dest := by
  obtain ⟨k, hk⟩ := exists_mem_zipIdx hm
  refine ⟨_, List.mem_flatMap.2 ⟨(m, k), hk, List.mem_map.2 ⟨r.rule.amsel, ?_, rfl⟩⟩, rfl⟩
  exact List.mem_filter.2 ⟨ha, decide_eq_true rfl⟩

theorem ruleOutputs_ne_nil {r : PlacedRule} : c.ruleOutputs op r ≠ [] ↔ c.HasMaster r := by
  constructor
  · intro h
    obtain ⟨n, hn⟩ := List.exists_mem_of_ne_nil _ h
    obtain ⟨_, _, m, hm, ha, _⟩ := mem_ruleOutputs hn
    exact ⟨m, hm, ha⟩
  · rintro ⟨m, hm, ha⟩
    obtain ⟨n, hn, _⟩ := exists_mem_ruleOutputs op hm ha
    exact List.ne_nil_of_mem hn

theorem mem_connectOutputs {n : PortMaskValue} (h : n ∈ c.connectOutputs op source) :
    n.rule = none ∧ n.mv = ⟨0, 0⟩ ∧ (source, n.port) ∈ c.connects := by
  obtain ⟨⟨⟨src, dst⟩, i⟩, he, rfl⟩ := List.mem_map.1 h
  obtain ⟨he, heq⟩ := List.mem_filter.1 he
  rw [decide_eq_true_eq] at heq
  exact ⟨rfl, rfl, heq ▸ List.fst_mem_of_mem_zipIdx he⟩

theorem exists_mem_connectOutputs {out : Port} (op : ℕ) (h : (source, out) ∈ c.connects) :
    ∃ n ∈ c.connectOutputs op source, n.port = out := by
  obtain ⟨k, hk⟩ := exists_mem_zipIdx h
  exact ⟨_, List.mem_map.2 ⟨_, List.mem_filter.2 ⟨hk, decide_eq_true rfl⟩, rfl⟩, rfl⟩

theorem pairwise_portRules :
    (c.portRules source).Pairwise fun r r' => ∀ op, HopOp.rule op r.i r.j ≠ .rule op r'.i r'.j := by
  rw [portRules, List.pairwise_flatMap]
  constructor
  · rintro ⟨rs, i⟩ _
    split_ifs
    · rw [List.pairwise_map]
      have := List.nodup_zipIdx_map_snd rs.rules
      rw [List.Nodup, List.pairwise_map] at this
      exact this.imp fun hne op heq => hne (HopOp.rule.inj heq).2.2
    · exact List.Pairwise.nil
  · have := List.nodup_zipIdx_map_snd c.packetRules
    rw [List.Nodup, List.pairwise_map] at this
    refine this.imp ?_
    rintro ⟨rs, i⟩ ⟨rs', i'⟩ hne r hr r' hr' op heq
    split_ifs at hr hr'
    · obtain ⟨_, _, rfl⟩ := List.mem_map.1 hr
      obtain ⟨_, _, rfl⟩ := List.mem_map.1 hr'
      exact hne (HopOp.rule.inj heq).2.1
    · cases hr'
    · cases hr
    · cases hr

/-- No later rule gets any id once a rule is followed that takes every id left. -/
theorem followed_taken {b : HopOp} {rs : List PlacedRule}
    (h : ∀ r ∈ rs, HopOp.rule op r.i r.j ≠ b) :
    followed mv (some b) (rs.flatMap (c.ruleOutputs op)) = [] := by
  induction rs with
  | nil => rfl
  | cons r rs ih =>
    rw [List.flatMap_cons, followed_skip]
    · exact ih fun r' hr' => h r' (List.mem_cons_of_mem r hr')
    · intro n hn heq
      rw [(mem_ruleOutputs hn).1] at heq
      exact h r List.mem_cons_self (Option.some.inj heq)

theorem followedRule_cons {r q : PlacedRule} {rs : List PlacedRule} :
    c.FollowedRule mv (r :: rs) q ↔ q = r ∧ c.Takes mv r ∨
      c.FollowedRule mv rs q ∧ (c.Takes mv r → mv.decided r.mv = false) := by
  constructor
  · rintro ⟨before, after, heq, htakes, hopen⟩
    cases before with
    | nil =>
      obtain ⟨rfl, rfl⟩ := List.cons.inj heq
      exact .inl ⟨rfl, htakes⟩
    | cons p before =>
      obtain ⟨rfl, rfl⟩ := List.cons.inj heq
      exact .inr ⟨⟨before, after, rfl, htakes, fun q hq => hopen q (List.mem_cons_of_mem _ hq)⟩,
        hopen r List.mem_cons_self⟩
  · rintro (⟨rfl, htakes⟩ | ⟨⟨before, after, rfl, htakes, hopen⟩, hr⟩)
    · exact ⟨[], rs, rfl, htakes, fun p hp => (List.not_mem_nil hp).elim⟩
    · refine ⟨r :: before, after, rfl, htakes, fun p hp => ?_⟩
      rcases List.mem_cons.1 hp with rfl | hp
      · exact hr
      · exact hopen p hp

theorem mem_followed_rules {rs : List PlacedRule}
    (hplaces : rs.Pairwise fun r r' => ∀ op, HopOp.rule op r.i r.j ≠ .rule op r'.i r'.j)
    {n : PortMaskValue} :
    n ∈ followed mv none (rs.flatMap (c.ruleOutputs op)) ↔
      ∃ r, c.FollowedRule mv rs r ∧ n ∈ c.ruleOutputs op r := by
  induction rs with
  | nil =>
    constructor
    · intro h
      cases h
    · rintro ⟨r, ⟨before, after, h, _⟩, _⟩
      exact absurd h.symm (List.append_ne_nil_of_right_ne_nil _ (List.cons_ne_nil r after))
  | cons r rs ih =>
    obtain ⟨hplace, hplaces⟩ := List.pairwise_cons.1 hplaces
    have houtputs : ∀ m ∈ c.ruleOutputs op r, m.rule = some (.rule op r.i r.j) ∧ m.mv = r.mv :=
      fun m hm => ⟨(mem_ruleOutputs hm).1, (mem_ruleOutputs hm).2.1⟩
    simp only [followedRule_cons, or_and_right, exists_or, and_assoc, exists_eq_left]
    rw [List.flatMap_cons]
    by_cases htakes : c.Takes mv r
    · have haccepts : ∀ m ∈ c.ruleOutputs op r, mv.accepts m.mv = true := fun m hm =>
        (houtputs m hm).2 ▸ htakes.2
      by_cases hdecided : mv.decided r.mv = true
      · -- no id is left for the rules after `r`
        rw [followed_close (b := .rule op r.i r.j) (.inl rfl) (ruleOutputs_ne_nil.2 htakes.1)
          fun m hm => ⟨(houtputs m hm).1, haccepts m hm, (houtputs m hm).2 ▸ hdecided⟩,
          followed_taken fun r' hr' => (hplace r' hr' op).symm]
        simp [htakes, hdecided]
      · rw [Bool.not_eq_true] at hdecided
        rw [followed_open fun m hm => ⟨haccepts m hm, .inr ((houtputs m hm).2 ▸ hdecided)⟩,
          List.mem_append, ih hplaces]
        simp [htakes, hdecided]
    · have hskip : followed mv none (c.ruleOutputs op r ++ rs.flatMap (c.ruleOutputs op)) =
          followed mv none (rs.flatMap (c.ruleOutputs op)) := by
        by_cases hmaster : c.HasMaster r
        · refine followed_reject fun m hm => ?_
          rw [(houtputs m hm).2, ← Bool.not_eq_true]
          exact fun haccepts => htakes ⟨hmaster, haccepts⟩
        · rw [not_not.1 fun hne => hmaster (ruleOutputs_ne_nil.1 hne), List.nil_append]
      rw [hskip, ih hplaces]
      simp [htakes]

/-- **The hops the traversal follows**: the circuits, and the master sets of the rules it
follows. -/
theorem mem_followed {n : PortMaskValue} :
    n ∈ followed mv none (c.getConnectionsThroughSwitchbox op source) ↔
      n ∈ c.connectOutputs op source ∨
        ∃ r, c.FollowedRule mv (c.portRules source) r ∧ n ∈ c.ruleOutputs op r := by
  rw [getConnectionsThroughSwitchbox, followed_open, List.mem_append,
    mem_followed_rules pairwise_portRules]
  intro m hm
  obtain ⟨hrule, hmv, _⟩ := mem_connectOutputs hm
  refine ⟨?_, .inl hrule⟩
  simp [hmv, MaskValue.accepts]

/-! ## Following an id -/

theorem claims_restrict_connect {id : ℕ} (h : mv.Claims id) :
    (mv.restrict ⟨0, 0⟩).Claims id := by
  simpa [MaskValue.restrict, MaskValue.Claims] using h

theorem claims_restrict_rule {id : ℕ} {r : PlacedRule} (h : mv.Claims id)
    (hr : r.rule.Matches id) : (mv.restrict r.mv).Claims id := by
  rw [MaskValue.Claims] at h
  rw [PacketRule.Matches] at hr
  rw [MaskValue.Claims, MaskValue.restrict, PlacedRule.mv, Nat.and_or_distrib_left, h]
  simp only [← hr]
  rw [Nat.and_comm r.rule.mask, Nat.and_assoc, Nat.and_self]

theorem accepts_of_matches {id : ℕ} {r : PlacedRule} (h : mv.Claims id) (hr : r.rule.Matches id) :
    mv.accepts r.mv = true := by
  rw [MaskValue.Claims] at h
  rw [PacketRule.Matches] at hr
  rw [MaskValue.accepts, beq_iff_eq, PlacedRule.mv]
  simp only [← hr, ← h]
  apply Nat.eq_of_testBit_eq
  intro i
  simp only [Nat.testBit_and]
  cases r.rule.mask.testBit i <;> cases mv.mask.testBit i <;> cases id.testBit i <;> rfl

theorem takes_id_of_decided {idMask id : ℕ} {r : PlacedRule} (h : mv.Claims id)
    (ht : c.Takes mv r) (hd : mv.decided r.mv = true) : c.Takes ⟨idMask, id⟩ r := by
  refine ⟨ht.1, ?_⟩
  have haccepts := ht.2
  rw [MaskValue.Claims] at h
  rw [MaskValue.accepts, beq_iff_eq] at haccepts ⊢
  rw [MaskValue.decided, beq_iff_eq] at hd
  rw [hd, ← h] at haccepts
  apply Nat.eq_of_testBit_eq
  intro i
  have h₁ := congrArg (Nat.testBit · i) haccepts
  have h₂ := congrArg (Nat.testBit · i) hd
  simp only [Nat.testBit_and] at h₁ h₂ ⊢
  revert h₁ h₂
  cases r.mv.mask.testBit i <;> cases mv.mask.testBit i <;> cases id.testBit i <;>
    cases r.mv.value.testBit i <;> cases idMask.testBit i <;> simp

theorem takes_iff_of_full {idMask id : ℕ} {r : PlacedRule} (h : mv.Claims id)
    (hfull : idMask &&& mv.mask = idMask) (ht : c.Takes mv r) : c.Takes ⟨idMask, id⟩ r := by
  refine ⟨ht.1, ?_⟩
  have haccepts := ht.2
  rw [MaskValue.Claims] at h
  rw [MaskValue.accepts, beq_iff_eq] at haccepts ⊢
  rw [← h] at haccepts
  apply Nat.eq_of_testBit_eq
  intro i
  have h₁ := congrArg (Nat.testBit · i) haccepts
  have h₂ := congrArg (Nat.testBit · i) hfull
  simp only [Nat.testBit_and] at h₁ h₂ ⊢
  revert h₁ h₂
  cases r.mv.mask.testBit i <;> cases mv.mask.testBit i <;> cases id.testBit i <;>
    cases r.mv.value.testBit i <;> cases idMask.testBit i <;> simp

theorem decided_of_full {idMask id : ℕ} {r : PlacedRule} (h : mv.Claims id)
    (hfull : idMask &&& mv.mask = idMask) (ht : c.Takes ⟨idMask, id⟩ r)
    (hd : (⟨idMask, id⟩ : MaskValue).decided r.mv = true) :
    c.Takes mv r ∧ mv.decided r.mv = true := by
  have haccepts := ht.2
  rw [MaskValue.Claims] at h
  rw [MaskValue.accepts, beq_iff_eq] at haccepts
  rw [MaskValue.decided, beq_iff_eq] at hd
  have hmask : r.mv.mask &&& mv.mask = r.mv.mask := by
    have hd' : r.mv.mask &&& idMask = r.mv.mask := hd
    rw [← hd', Nat.and_assoc, hfull]
  refine ⟨⟨ht.1, ?_⟩, by rw [MaskValue.decided, beq_iff_eq, hmask]⟩
  rw [MaskValue.accepts, beq_iff_eq, hmask, ← h, ← Nat.and_assoc, Nat.and_right_comm, hmask]
  simp only [hd] at haccepts
  exact haccepts

theorem FollowedRule.of_full {idMask id : ℕ} {rs : List PlacedRule} {r : PlacedRule}
    (h : mv.Claims id) (hfull : idMask &&& mv.mask = idMask) (hr : c.FollowedRule mv rs r) :
    c.FollowedRule ⟨idMask, id⟩ rs r := by
  obtain ⟨before, after, heq, htakes, hopen⟩ := hr
  refine ⟨before, after, heq, takes_iff_of_full h hfull htakes, fun p hp hp' => ?_⟩
  rw [← Bool.not_eq_true]
  intro hd
  obtain ⟨ht, hd'⟩ := decided_of_full h hfull hp' hd
  rw [hopen p hp ht] at hd'
  cases hd'

/-- **Where rules are direct, the traversal of an id follows only what the switch does.** -/
theorem forwards_of_followed {idMask id : ℕ} {n : PortMaskValue}
    (hdirect : c.Direct idMask id source) (h : mv.Claims id) (hfull : idMask &&& mv.mask = idMask)
    (hn : n ∈ followed mv none (c.getConnectionsThroughSwitchbox op source)) :
    c.Forwards source id n.port n.rule.isSome ∧ (mv.restrict n.mv).Claims id ∧
      idMask &&& (mv.restrict n.mv).mask = idMask := by
  have hkeep : idMask &&& (mv.restrict n.mv).mask = idMask := by
    rw [MaskValue.restrict, Nat.and_or_distrib_left, hfull]
    apply Nat.eq_of_testBit_eq
    intro i
    simp only [Nat.testBit_or, Nat.testBit_and]
    cases idMask.testBit i <;> simp
  rcases mem_followed.1 hn with hn | ⟨r, hr, hn⟩
  · obtain ⟨hrule, hmv, hconnect⟩ := mem_connectOutputs hn
    refine ⟨?_, hmv ▸ claims_restrict_connect h, hkeep⟩
    rw [hrule]
    exact .connect hconnect
  · obtain ⟨hrule, hmv, m, hm, ha, hport⟩ := mem_ruleOutputs hn
    have hfirst := hdirect r (hr.of_full h hfull)
    have hmatches := List.find?_some hfirst
    rw [decide_eq_true_eq] at hmatches
    rw [hrule, hport]
    exact ⟨.rule hfirst hm ha, hmv ▸ claims_restrict_rule h hmatches, hkeep⟩

theorem followedRule_firstMatch {idMask id : ℕ} {r : PlacedRule}
    (hdirect : c.Direct idMask id source) (h : mv.Claims id)
    (hr : c.firstMatch source id = some r) (hmaster : c.HasMaster r) :
    c.FollowedRule mv (c.portRules source) r := by
  obtain ⟨hmatches, before, after, heq, hnone⟩ := List.find?_eq_some_iff_append.1 hr
  rw [decide_eq_true_eq] at hmatches
  refine ⟨before, after, heq, ⟨hmaster, accepts_of_matches h hmatches⟩, fun p hp htakes => ?_⟩
  rw [← Bool.not_eq_true]
  intro hd
  -- the first rule before it that takes the id would be its first match
  obtain ⟨q, hq⟩ : ∃ q, c.FollowedRule ⟨idMask, id⟩ before q := by
    have hid : c.Takes ⟨idMask, id⟩ p := takes_id_of_decided h htakes hd
    clear hnone hr heq htakes hd
    induction before with
    | nil => cases hp
    | cons b before ih =>
      by_cases hb : c.Takes ⟨idMask, id⟩ b
      · exact ⟨b, followedRule_cons.2 (.inl ⟨rfl, hb⟩)⟩
      · rcases List.mem_cons.1 hp with rfl | hp
        · exact absurd hid hb
        · obtain ⟨q, hq⟩ := ih hp
          exact ⟨q, followedRule_cons.2 (.inr ⟨hq, fun hb' => absurd hb' hb⟩)⟩
  obtain ⟨before', after', rfl, htakes', hopen⟩ := hq
  have hfirst : c.firstMatch source id = some q :=
    hdirect q ⟨before', after' ++ r :: after, by rw [heq]; simp, htakes', hopen⟩
  have hqmatches := List.find?_some hfirst
  have := hnone q (List.mem_append_right _ List.mem_cons_self)
  rw [hqmatches] at this
  cases this

/-- **Where rules are direct, a traversal follows all that the switch does** with an id of its
claim. -/
theorem exists_followed {idMask id : ℕ} {out : Port} {packet : Bool}
    (hdirect : c.Direct idMask id source) (h : mv.Claims id)
    (hout : c.Forwards source id out packet) :
    ∃ n ∈ followed mv none (c.getConnectionsThroughSwitchbox op source), n.port = out ∧
      n.rule.isSome = packet ∧ (mv.restrict n.mv).Claims id := by
  cases hout with
  | connect hconnect =>
    obtain ⟨n, hn, hport⟩ := exists_mem_connectOutputs op hconnect
    obtain ⟨hrule, hmv, _⟩ := mem_connectOutputs hn
    exact ⟨n, mem_followed.2 (.inl hn), hport, by rw [hrule]; rfl,
      hmv ▸ claims_restrict_connect h⟩
  | @rule r m hr hm ha =>
    obtain ⟨n, hn, hport⟩ := exists_mem_ruleOutputs op hm ha
    obtain ⟨hrule, hmv, _⟩ := mem_ruleOutputs hn
    have hmatches := List.find?_some hr
    rw [decide_eq_true_eq] at hmatches
    exact ⟨n, mem_followed.2 (.inr ⟨r, followedRule_firstMatch hdirect h hr ⟨m, hm, ha⟩, hn⟩),
      hport, by rw [hrule]; rfl, hmv ▸ claims_restrict_rule h hmatches⟩

end Connections

end MlirAie.Flows
