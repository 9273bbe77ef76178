import MlirAie.Flows.Lifted

/-!
# Routes in sections, and termination of the traversal

Where vias are emitted, a route is cut into linear sections: a port that drives several outputs ends
a section, as does an output where packets of one id merge. The traversal keeps no record of the
ports it passed.

* `traverseSections`: the traversal, cut there if sections are split;
* `Forwards`: a claim at a slave port goes on to another slave port;
* **`traverseSections_ends_iff`**: the traversal ends exactly if no claim that it comes to is led
  back to the port it is at.
-/

namespace MlirAie.Flows

open Lib Route

/-! ## Boundaries -/

/-- Whether the traversal is cut at the boundaries, and the largest packet id of the device. -/
structure Sections where
  splitFanouts : Bool
  maxPacketId : ℕ

namespace Connections

variable (c : Connections)

/-- The first rule that takes an id. -/
def selected (rules : PacketRules) (id : ℕ) : Option PacketRule :=
  rules.rules.find? fun rule => id &&& rule.mask == rule.value

/-- A packet that takes the rule leaves on the egress. -/
def drives (egress : Port) (rule : PacketRule) : Bool :=
  c.masterSets.any fun masterSet => masterSet.dest = egress && rule.amsel ∈ masterSet.amsels

/-- The slave ports whose packets of an id leave on the egress. -/
def mergeIngresses (egress : Port) (id : ℕ) : List Port :=
  ((c.packetRules.filter fun rules => (selected rules id).any (c.drives egress)).map
    PacketRules.source).dedup

end Connections

namespace Device

variable (D : Device) (S : Sections)

def switchbox (op : ℕ) : Option Connections :=
  match D.ops[op]? with
  | some (.switchbox c) => some c
  | _ => none

def isFanoutIngress (op : ℕ) (p : Port) : Bool :=
  S.splitFanouts && (D.switchbox op).any fun c =>
    1 < (c.getConnectionsThroughSwitchbox op p).length

def isPacketMergeEgress (op : ℕ) (egress : Port) (id : ℕ) : Bool :=
  S.splitFanouts && (D.switchbox op).any fun c => 1 < (c.mergeIngresses egress id).length

/-- Some id of the claim merges at the output. -/
def reachesMerge (op : ℕ) (egress : Port) (claim : MaskValue) : Bool :=
  (List.range (S.maxPacketId + 1)).any fun id =>
    decide (claim.Claims id) && D.isPacketMergeEgress S op egress id

/-! ## The traversal -/

/-- What a traversal finds: an endpoint, or an output a new section starts from. -/
inductive Found
  | endpoint (t : PacketConnection)
  | circuitFanoutSeed (op : ℕ) (ingress egress : Port) (ops : List HopOp)
  | fanoutEgressSeed (op : ℕ) (egress : Port)

/-- Every output a fan-out drives starts a section. -/
def fanoutSeed (op : ℕ) (ingress : Port) (n : PortMaskValue) : Found :=
  if n.rule.isNone then .circuitFanoutSeed op ingress n.port n.ops
  else .fanoutEgressSeed op n.port

/-- A section that ends before a merge, at the port it came in by. -/
def mergeEnd (t : PacketConnection) (n : PortMaskValue) : PacketConnection :=
  { t with mv := t.mv.restrict n.mv, isPacket := t.isPacket || n.rule.isSome }

/-- The hops that an interconnect takes a claim by. -/
def sectionHops (c : Connections) (slave : PortConnection) (mv : MaskValue) : List PortMaskValue :=
  (followed mv none (c.getConnectionsThroughSwitchbox slave.op slave.port)).filter fun n =>
    !D.reachesMerge S slave.op n.port (mv.restrict n.mv)

/-- The endpoint a hop ends at, if it does. -/
def partialEndpoint (keepPartialFlows : Bool) (t : PacketConnection) (n : PortMaskValue) :
    Option PacketConnection :=
  if D.reachesMerge S t.portConnection.op n.port (t.mv.restrict n.mv) then some (mergeEnd t n)
  else if keepPartialFlows && (D.getConnectionThroughWire t.portConnection.op n.port).isNone then
    some (D.hop t n ⟨t.portConnection.op, n.port⟩)
  else none

/-- One connection of the traversal: where it goes on, and what it finds. -/
def sectionStep (keepPartialFlows : Bool) (t : PacketConnection) :
    List PacketConnection × List Found :=
  let op := t.portConnection.op
  let port := t.portConnection.port
  if D.isFlowEndPoint op then ([], [.endpoint t])
  else
    match D.connections op with
    | none => ([], [])
    | some c =>
      let outputs := c.getConnectionsThroughSwitchbox op port
      if D.isFanoutIngress S op port then
        ([], .endpoint t :: outputs.map (fanoutSeed op port))
      else
        ((D.sectionHops S c t.portConnection t.mv).filterMap fun n =>
            (D.getConnectionThroughWire op n.port).map (D.hop t n),
          ((followed t.mv none outputs).filterMap
            (D.partialEndpoint S keepPartialFlows t)).map Found.endpoint)

/-- What the connections of a worklist lead to, for at most a number of connections. -/
def traverseSections (keepPartialFlows : Bool) (fuel : ℕ) (worklist : List PacketConnection) :
    Option (List Found) :=
  drain (D.sectionStep S keepPartialFlows) fuel worklist.reverse []

/-! ## Claims on their way -/

/-- A slave port, and the ids that come to it. -/
structure ClaimAt where
  slave : PortConnection
  mv : MaskValue

/-- A claim at a slave port goes on to another, unless the section ends there. -/
def Forwards (x y : ClaimAt) : Prop :=
  D.isFanoutIngress S x.slave.op x.slave.port = false ∧ ∃ c, D.connections x.slave.op = some c ∧
    ∃ n ∈ D.sectionHops S c x.slave x.mv, ∃ next,
      D.getConnectionThroughWire x.slave.op n.port = some next ∧ ⟨next, x.mv.restrict n.mv⟩ = y

/-- No claim that this one becomes is led back to the port it is at. -/
def NoReturn (x : ClaimAt) : Prop :=
  ∀ y, Relation.ReflTransGen (D.Forwards S) x y → ¬ Relation.TransGen (D.Forwards S) y y

end Device

namespace PacketConnection

/-- The claim the traversal follows, and where it has come to. -/
def claimAt (t : PacketConnection) : Device.ClaimAt := ⟨t.portConnection, t.mv⟩

end PacketConnection

namespace Device

variable {D : Device} {S : Sections} {keepPartialFlows : Bool} {t t' : PacketConnection}

/-! ## Without sections -/

theorem isFanoutIngress_unsplit (h : S.splitFanouts = false) (op : ℕ) (p : Port) :
    D.isFanoutIngress S op p = false := by
  rw [isFanoutIngress, h, Bool.false_and]

theorem reachesMerge_unsplit (h : S.splitFanouts = false) (op : ℕ) (p : Port) (mv : MaskValue) :
    D.reachesMerge S op p mv = false := by
  simp [reachesMerge, isPacketMergeEgress, h]

theorem sectionHops_unsplit (h : S.splitFanouts = false) (c : Connections) (slave : PortConnection)
    (mv : MaskValue) : D.sectionHops S c slave mv =
      followed mv none (c.getConnectionsThroughSwitchbox slave.op slave.port) := by
  simp [sectionHops, reachesMerge_unsplit h]

theorem partialEndpoint_unsplit (h : S.splitFanouts = false) (keepPartialFlows : Bool)
    (t : PacketConnection) (hops : List PortMaskValue) :
    hops.filterMap (D.partialEndpoint S keepPartialFlows t) =
      if keepPartialFlows then
        (hops.filter fun n => D.getConnectionThroughWire t.portConnection.op n.port = none).map
          fun n => D.hop t n ⟨t.portConnection.op, n.port⟩
      else [] := by
  induction hops with
  | nil => cases keepPartialFlows <;> rfl
  | cons n hops ih =>
    have hn : D.partialEndpoint S keepPartialFlows t n =
        if keepPartialFlows && (D.getConnectionThroughWire t.portConnection.op n.port).isNone then
          some (D.hop t n ⟨t.portConnection.op, n.port⟩) else none := by
      rw [partialEndpoint, reachesMerge_unsplit h]
      rfl
    rw [List.filterMap_cons, hn, ih]
    cases keepPartialFlows with
    | false => simp
    | true =>
      cases hwire : D.getConnectionThroughWire t.portConnection.op n.port <;> simp [hwire]

theorem sectionStep_unsplit (h : S.splitFanouts = false) (t : PacketConnection) :
    D.sectionStep S keepPartialFlows t =
      ((D.traverseStep keepPartialFlows t).1,
        (D.traverseStep keepPartialFlows t).2.map Found.endpoint) := by
  simp only [sectionStep, traverseStep]
  by_cases hend : D.isFlowEndPoint t.portConnection.op = true
  · simp [hend]
  · cases hc : D.connections t.portConnection.op with
    | none => simp [hend]
    | some c =>
      simp only [hend, isFanoutIngress_unsplit h, sectionHops_unsplit h,
        partialEndpoint_unsplit h, maskSwitchboxConnections, Bool.false_eq_true, if_false]

theorem leads_section_iff : Leads (D.sectionStep S keepPartialFlows) t t' ↔
    D.isFanoutIngress S t.portConnection.op t.portConnection.port = false ∧
      ∃ c, D.connections t.portConnection.op = some c ∧
        ∃ n ∈ D.sectionHops S c t.portConnection t.mv, ∃ next,
          D.getConnectionThroughWire t.portConnection.op n.port = some next ∧
            D.hop t n next = t' := by
  cases hc : D.connections t.portConnection.op with
  | none =>
    have hnil : (D.sectionStep S keepPartialFlows t).1 = [] := by
      simp only [sectionStep, hc]
      split_ifs <;> rfl
    rw [Leads, hnil]
    simp
  | some c =>
    simp only [Leads, sectionStep, not_isFlowEndPoint hc, hc, Bool.false_eq_true, if_false]
    cases D.isFanoutIngress S t.portConnection.op t.portConnection.port with
    | true => simp
    | false => simp only [Bool.false_eq_true, if_false, List.mem_filterMap,
        Option.map_eq_some_iff, Option.some.injEq, exists_eq_left', true_and]

theorem forwards_of_leads (h : Leads (D.sectionStep S keepPartialFlows) t t') :
    D.Forwards S t.claimAt t'.claimAt := by
  obtain ⟨hfanout, c, hc, n, hn, next, hnext, rfl⟩ := leads_section_iff.1 h
  exact ⟨hfanout, c, hc, n, hn, next, hnext, rfl⟩

theorem exists_leads_of_forwards {y : ClaimAt} (h : D.Forwards S t.claimAt y) :
    ∃ t', Leads (D.sectionStep S keepPartialFlows) t t' ∧ t'.claimAt = y := by
  obtain ⟨hfanout, c, hc, n, hn, next, hnext, rfl⟩ := h
  exact ⟨D.hop t n next, leads_section_iff.2 ⟨hfanout, c, hc, n, hn, next, hnext, rfl⟩, rfl⟩

theorem hop_of_forwards {x y : ClaimAt} (h : D.Forwards S x y) : D.Hop x.slave y.slave := by
  obtain ⟨-, c, hc, n, hn, next, hnext, rfl⟩ := h
  exact ⟨c, hc, n, mem_of_mem_followed (List.mem_of_mem_filter hn), hnext⟩

/-- The masks and values of a claim stay below a power of two that the rules stay below. -/
theorem restrict_lt {k : ℕ} {mv next : MaskValue} (hmask : mv.mask < 2 ^ k)
    (hvalue : mv.value < 2 ^ k) (hnext : next.mask < 2 ^ k) :
    (mv.restrict next).mask < 2 ^ k ∧ (mv.restrict next).value < 2 ^ k :=
  ⟨Nat.or_lt_two_pow hmask hnext,
    Nat.or_lt_two_pow hvalue (Nat.and_le_left.trans_lt hnext)⟩

theorem exists_mask_bound (D : Device) :
    ∃ k, ∀ (n : PortConnection) (c : Connections), D.connections n.op = some c →
      ∀ out ∈ c.getConnectionsThroughSwitchbox n.op n.port,
        D.getConnectionThroughWire n.op out.port ≠ none → out.mv.mask < 2 ^ k := by
  let masks (n : PortConnection) : Set ℕ :=
    {m | ∃ c ∈ D.connections n.op, ∃ out ∈ c.getConnectionsThroughSwitchbox n.op n.port,
      out.mv.mask = m}
  have hmasks : ∀ n, (masks n).Finite := by
    intro n
    refine Set.Finite.subset (List.finite_toSet ((D.connections n.op).toList.flatMap fun c =>
      (c.getConnectionsThroughSwitchbox n.op n.port).map fun out => out.mv.mask)) ?_
    rintro m ⟨c, hc, out, hout, rfl⟩
    exact List.mem_flatMap.2 ⟨c, Option.mem_toList.2 hc, List.mem_map_of_mem hout⟩
  obtain ⟨M, hM⟩ := (D.finite_hop.biUnion fun n _ => hmasks n).bddAbove
  refine ⟨M, fun n c hc out hout hwire => ?_⟩
  obtain ⟨next, hnext⟩ := Option.ne_none_iff_exists'.1 hwire
  have hle : out.mv.mask ≤ M := by
    refine hM (Set.mem_biUnion (x := n) ?_ ⟨c, hc, out, hout, rfl⟩)
    exact ⟨next, c, hc, out, hout, hnext⟩
  exact hle.trans_lt Nat.lt_two_pow_self

/-- Finitely many claims come from one claim and go on. -/
theorem finite_forwards (x : ClaimAt) :
    {y | Relation.ReflTransGen (D.Forwards S) x y ∧ ∃ z, D.Forwards S y z}.Finite := by
  obtain ⟨m, hm⟩ := D.exists_mask_bound
  let k := max m (max x.mv.mask x.mv.value)
  have hbound : ∀ y, Relation.ReflTransGen (D.Forwards S) x y →
      y.mv.mask < 2 ^ k ∧ y.mv.value < 2 ^ k := by
    intro y hy
    induction hy with
    | refl =>
      have hlt : k < 2 ^ k := Nat.lt_two_pow_self
      exact ⟨by omega, by omega⟩
    | tail _ hyz ih =>
      obtain ⟨-, c, hc, n, hn, next, hnext, rfl⟩ := hyz
      refine restrict_lt ih.1 ih.2 ((hm _ c hc n ?_ ?_).trans_le ?_)
      · exact mem_of_mem_followed (List.mem_of_mem_filter hn)
      · rw [hnext]
        exact Option.some_ne_none next
      · exact Nat.pow_le_pow_right Nat.two_pos (le_max_left _ _)
  refine Set.Finite.subset ((D.finite_hop.prod
    ((Set.finite_lt_nat (2 ^ k)).prod (Set.finite_lt_nat (2 ^ k)))).image
      fun p => (⟨p.1, p.2.1, p.2.2⟩ : ClaimAt)) ?_
  rintro y ⟨hy, z, hyz⟩
  exact ⟨(y.slave, y.mv.mask, y.mv.value), ⟨⟨z.slave, hop_of_forwards hyz⟩, hbound y hy⟩, rfl⟩

theorem acc_sectionStep_iff : Acc (fun y x => Leads (D.sectionStep S keepPartialFlows) x y) t ↔
    D.NoReturn S t.claimAt := by
  rw [acc_iff_of_map PacketConnection.claimAt forwards_of_leads exists_leads_of_forwards]
  exact acc_iff_of_finite (finite_forwards t.claimAt)

/-- **The traversal ends** exactly if, of the claims it starts from, none becomes a claim that is
led back to the port it is at. -/
theorem traverseSections_ends_iff (D : Device) (S : Sections) (keepPartialFlows : Bool)
    (worklist : List PacketConnection) :
    (∃ fuel found, D.traverseSections S keepPartialFlows fuel worklist = some found) ↔
      ∀ t ∈ worklist, D.NoReturn S t.claimAt := by
  simp only [traverseSections, exists_drain_iff, List.mem_reverse, acc_sectionStep_iff]

theorem traverseSections_eq_none (h : ¬ D.NoReturn S t.claimAt) (fuel : ℕ) :
    D.traverseSections S keepPartialFlows fuel [t] = none := by
  by_contra hsome
  obtain ⟨found, hfound⟩ := Option.ne_none_iff_exists'.1 hsome
  exact h (acc_sectionStep_iff.1 (acc_of_drain hfound List.mem_cons_self))

/-! ## A ring of two switchboxes -/

/-- Packets from the tile's DMA go east, and the neighbour sends back what it gets. -/
def ringDevice : Device where
  ops := [.flowEndPoint,
    .switchbox {
      packetRules := [⟨⟨.DMA, 0⟩, [⟨31, 1, 0⟩]⟩, ⟨⟨.East, 0⟩, [⟨31, 1, 0⟩]⟩]
      masterSets := [⟨⟨.East, 0⟩, [0]⟩] },
    .switchbox {
      packetRules := [⟨⟨.West, 0⟩, [⟨31, 1, 0⟩]⟩]
      masterSets := [⟨⟨.West, 0⟩, [0]⟩] }]
  wires := [⟨0, .DMA, 1, .DMA⟩, ⟨1, .East, 2, .West⟩]

theorem ring_east (mv : MaskValue) (p : Port) (hp : p = ⟨.DMA, 0⟩ ∨ p = ⟨.East, 0⟩)
    (hmv : mv = ⟨0, 0⟩ ∨ mv = ⟨31, 1⟩) :
    ringDevice.Forwards ⟨false, 31⟩ ⟨⟨1, p⟩, mv⟩ ⟨⟨2, ⟨.West, 0⟩⟩, ⟨31, 1⟩⟩ := by
  rcases hp with rfl | rfl <;> rcases hmv with rfl | rfl <;>
    exact ⟨rfl, _, rfl, _, List.mem_cons_self, _, rfl, rfl⟩

theorem ring_west : ringDevice.Forwards ⟨false, 31⟩ ⟨⟨2, ⟨.West, 0⟩⟩, ⟨31, 1⟩⟩
    ⟨⟨1, ⟨.East, 0⟩⟩, ⟨31, 1⟩⟩ :=
  ⟨rfl, _, rfl, _, List.mem_cons_self, _, rfl, rfl⟩

/-- The traversal from the DMA never ends. -/
theorem ring_diverges :
    ringDevice.getConnectionThroughWire 0 ⟨.DMA, 0⟩ = some ⟨1, ⟨.DMA, 0⟩⟩ ∧
      ∀ fuel, ringDevice.traverseSections ⟨false, 31⟩ false fuel
        [{ portConnection := ⟨1, ⟨.DMA, 0⟩⟩, mv := ⟨0, 0⟩ }] = none := by
  refine ⟨rfl, fun fuel => traverseSections_eq_none ?_ fuel⟩
  intro hreturn
  exact hreturn ⟨⟨2, ⟨.West, 0⟩⟩, ⟨31, 1⟩⟩ (.single (ring_east _ _ (.inl rfl) (.inl rfl)))
    (.tail (.single ring_west) (ring_east _ _ (.inr rfl) (.inr rfl)))

end Device

end MlirAie.Flows
