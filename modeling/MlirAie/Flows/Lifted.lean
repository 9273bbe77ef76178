import MlirAie.Flows.Semantics
import MlirAie.Flows.Exact
import MlirAie.Lib.Lists

/-!
# Lifted packet flows state what the switches do

The traversal of an id follows a packet of the id, and the traversal of all ids at once follows
every packet, as long as the rules it follows at each port are the first match there.

* `Device.moves_of_leads`, `Device.exists_leads`: the traversal and the packet, hop by hop;
* `Device.mem_getConnectedTiles`: the endpoints of an id's traversal are those its packet reaches;
* **`Device.liftedEndpoints_exact`**: the endpoints lifted from a port, and the ids they claim.
-/

namespace MlirAie.Flows

open Lib Route

namespace Device

variable {D : Device} {keepPartialFlows : Bool} {t t' : PacketConnection} {id idMask : ℕ}

theorem not_isFlowEndPoint {op : ℕ} {c : Connections} (h : D.connections op = some c) :
    D.isFlowEndPoint op = false := by
  rw [connections] at h
  rw [isFlowEndPoint, decide_eq_false_iff_not]
  intro heq
  rw [heq] at h
  cases h

theorem traverseStep_eq {c : Connections} (h : D.connections t.portConnection.op = some c) :
    D.traverseStep keepPartialFlows t = D.maskSwitchboxConnections keepPartialFlows t
      (c.getConnectionsThroughSwitchbox t.portConnection.op t.portConnection.port) := by
  simp [traverseStep, not_isFlowEndPoint h, h]

/-- A connection leads on by a hop it follows, over a wire. -/
theorem leads_iff : Leads (D.traverseStep keepPartialFlows) t t' ↔
    ∃ c, D.connections t.portConnection.op = some c ∧
      ∃ n ∈ followed t.mv none
        (c.getConnectionsThroughSwitchbox t.portConnection.op t.portConnection.port),
        ∃ next, D.getConnectionThroughWire t.portConnection.op n.port = some next ∧
          D.hop t n next = t' := by
  cases hc : D.connections t.portConnection.op with
  | none =>
    have hnil : (D.traverseStep keepPartialFlows t).1 = [] := by
      rw [traverseStep, hc]
      split_ifs <;> rfl
    rw [Leads, hnil]
    simp
  | some c =>
    rw [Leads, traverseStep_eq hc, maskSwitchboxConnections]
    simp only [List.mem_filterMap, Option.map_eq_some_iff, Option.some.injEq, exists_eq_left']

/-- A traversal ends at a flow endpoint or, under partial recovery, at an output no wire
continues. -/
theorem mem_traverseStep_snd {r : PacketConnection} :
    r ∈ (D.traverseStep keepPartialFlows t).2 ↔
      (D.isFlowEndPoint t.portConnection.op = true ∧ r = t) ∨
        (keepPartialFlows = true ∧ ∃ c, D.connections t.portConnection.op = some c ∧
          ∃ n ∈ followed t.mv none
            (c.getConnectionsThroughSwitchbox t.portConnection.op t.portConnection.port),
            D.getConnectionThroughWire t.portConnection.op n.port = none ∧
              D.hop t n ⟨t.portConnection.op, n.port⟩ = r) := by
  cases hc : D.connections t.portConnection.op with
  | none =>
    rw [traverseStep, hc]
    split_ifs with hend
    · simp [hend]
    · simp [hend]
  | some c =>
    rw [traverseStep_eq hc, maskSwitchboxConnections, not_isFlowEndPoint hc]
    cases keepPartialFlows
    · simp
    · simp [and_assoc]

/-! ## One hop -/

theorem moves_of_leads (hdirect : D.DirectAt idMask id t.portConnection) (h : t.mv.Claims id)
    (hfull : idMask &&& t.mv.mask = idMask) (ht : Leads (D.traverseStep keepPartialFlows) t t') :
    D.Moves id (t.portConnection, t.isPacket) (t'.portConnection, t'.isPacket) ∧
      t'.mv.Claims id ∧ idMask &&& t'.mv.mask = idMask := by
  obtain ⟨c, hc, n, hn, next, hnext, rfl⟩ := leads_iff.1 ht
  obtain ⟨hout, hclaims, hfull'⟩ := Connections.forwards_of_followed (hdirect c hc) h hfull hn
  exact ⟨.hop hc hout hnext, hclaims, hfull'⟩

/-- A traversal whose claim holds an id goes where its packet does, among others. -/
theorem exists_leads (keepPartialFlows : Bool) {n : PortConnection × Bool}
    (hdirect : D.DirectAt idMask id t.portConnection) (h : t.mv.Claims id)
    (hmoves : D.Moves id (t.portConnection, t.isPacket) n) :
    ∃ t', Leads (D.traverseStep keepPartialFlows) t t' ∧
      (t'.portConnection, t'.isPacket) = n ∧ t'.mv.Claims id := by
  cases hmoves with
  | @hop _ next _ packet c out hc hout hwire =>
    obtain ⟨m, hm, hport, hrule, hclaims⟩ := Connections.exists_followed (hdirect c hc) h hout
    refine ⟨D.hop t m next, leads_iff.2 ⟨c, hc, m, hm, next, hport ▸ hwire, rfl⟩, ?_, hclaims⟩
    rw [← hrule]
    rfl

theorem circuit_of_leads (ht : Leads (D.traverseStep keepPartialFlows) t t')
    (hcircuit : t'.isPacket = false) (hmv : t.isPacket = false → t.mv = ⟨0, 0⟩) :
    t.isPacket = false ∧ t'.mv = ⟨0, 0⟩ ∧
      ∀ id, D.Moves id (t.portConnection, false) (t'.portConnection, false) := by
  obtain ⟨c, hc, n, hn, next, hnext, rfl⟩ := leads_iff.1 ht
  obtain ⟨ht, hrule⟩ := Bool.or_eq_false_iff.1 hcircuit
  rcases Connections.mem_followed.1 hn with hn | ⟨r, _, hn⟩
  · obtain ⟨_, hnmv, hconnect⟩ := Connections.mem_connectOutputs hn
    refine ⟨ht, ?_, fun id => ?_⟩
    · show t.mv.restrict n.mv = _
      rw [hmv ht, hnmv]
      rfl
    · exact @Moves.hop _ _ _ _ false false _ _ hc (.connect hconnect) hnext
  · rw [(Connections.mem_ruleOutputs hn).1] at hrule
    cases hrule

/-! ## Whole traversals -/

section Traversal

variable {start : PortConnection} {claim : MaskValue}

def startOf (start : PortConnection) (claim : MaskValue) : PacketConnection :=
  { portConnection := start, mv := claim }

theorem arrives_of_leads (hdirect : ∀ n b, D.ArrivesFrom id start n b → D.DirectAt idMask id n)
    (h : claim.Claims id) (hfull : idMask &&& claim.mask = idMask)
    (ht : Relation.ReflTransGen (Leads (D.traverseStep keepPartialFlows)) (startOf start claim) t) :
    D.ArrivesFrom id start t.portConnection t.isPacket ∧ t.mv.Claims id ∧
      idMask &&& t.mv.mask = idMask := by
  induction ht with
  | refl => exact ⟨.refl, h, hfull⟩
  | tail _ hleads ih =>
    obtain ⟨harrives, hclaims, hfull⟩ := ih
    obtain ⟨hmoves, hclaims', hfull'⟩ :=
      moves_of_leads (hdirect _ _ harrives) hclaims hfull hleads
    exact ⟨harrives.tail hmoves, hclaims', hfull'⟩

theorem exists_leads_of_arrives (keepPartialFlows : Bool) {n : PortConnection} {b : Bool}
    (hdirect : ∀ n b, D.ArrivesFrom id start n b → D.DirectAt idMask id n)
    (h : claim.Claims id) (harrives : D.ArrivesFrom id start n b) :
    ∃ t, Relation.ReflTransGen (Leads (D.traverseStep keepPartialFlows)) (startOf start claim) t ∧
      (t.portConnection, t.isPacket) = (n, b) ∧ t.mv.Claims id := by
  have hrun : ∀ p, Relation.ReflTransGen (D.Moves id) (start, false) p →
      ∃ t, Relation.ReflTransGen (Leads (D.traverseStep keepPartialFlows)) (startOf start claim) t ∧
        (t.portConnection, t.isPacket) = p ∧ t.mv.Claims id := by
    intro p hp
    induction hp with
    | refl => exact ⟨_, .refl, rfl, h⟩
    | tail hp hmoves ih =>
      obtain ⟨t, ht, rfl, hclaims⟩ := ih
      obtain ⟨t', hleads, heq, hclaims'⟩ :=
        exists_leads keepPartialFlows (hdirect _ _ hp) hclaims hmoves
      exact ⟨t', ht.tail hleads, heq, hclaims'⟩
  exact hrun _ harrives

/-- A traversal of all ids comes along circuits alone only where every packet does. -/
theorem circuit_arrives (hcircuit : t.isPacket = false)
    (ht : Relation.ReflTransGen (Leads (D.traverseStep keepPartialFlows)) (startOf start ⟨0, 0⟩) t) :
    t.mv = ⟨0, 0⟩ ∧ ∀ id, D.ArrivesFrom id start t.portConnection false := by
  induction ht with
  | refl => exact ⟨rfl, fun _ => .refl⟩
  | tail _ hleads ih =>
    have hback := circuit_of_leads hleads hcircuit fun hb => (ih hb).1
    obtain ⟨hmv, harrives⟩ := ih hback.1
    exact ⟨hback.2.1, fun id => (harrives id).tail (hback.2.2 id)⟩

theorem ends_of_mem (hdirect : D.DirectAt idMask id t.portConnection) (h : t.mv.Claims id)
    (hfull : idMask &&& t.mv.mask = idMask) {r : PacketConnection}
    (hr : r ∈ (D.traverseStep keepPartialFlows t).2) :
    D.Ends keepPartialFlows id t.portConnection t.isPacket r.portConnection r.isPacket := by
  rcases mem_traverseStep_snd.1 hr with ⟨hend, rfl⟩ | ⟨hkeep, c, hc, n, hn, hwire, rfl⟩
  · exact .inl ⟨hend, rfl, rfl⟩
  · obtain ⟨hout, _⟩ := Connections.forwards_of_followed (hdirect c hc) h hfull hn
    exact .inr ⟨hkeep, c, n.port, _, hc, hout, hwire, rfl, rfl⟩

theorem exists_mem_of_ends (hdirect : D.DirectAt idMask id t.portConnection) (h : t.mv.Claims id)
    {d : PortConnection} {b : Bool}
    (hends : D.Ends keepPartialFlows id t.portConnection t.isPacket d b) :
    ∃ r ∈ (D.traverseStep keepPartialFlows t).2, r.portConnection = d ∧ r.isPacket = b ∧
      r.mv.Claims id := by
  rcases hends with ⟨hend, rfl, rfl⟩ | ⟨hkeep, c, out, packet, hc, hout, hwire, rfl, rfl⟩
  · exact ⟨t, mem_traverseStep_snd.2 (.inl ⟨hend, rfl⟩), rfl, rfl, h⟩
  · obtain ⟨m, hm, rfl, rfl, hclaims⟩ := Connections.exists_followed (hdirect c hc) h hout
    exact ⟨_, mem_traverseStep_snd.2 (.inr ⟨hkeep, c, hc, m, hm, hwire, rfl⟩), rfl, rfl, hclaims⟩

/-- Where a traversal of all ids ends as a circuit, every packet does. -/
theorem circuit_ends {r : PacketConnection} (hr : r ∈ (D.traverseStep keepPartialFlows t).2)
    (hcircuit : r.isPacket = false) (hmv : t.isPacket = false → t.mv = ⟨0, 0⟩) :
    t.isPacket = false ∧ r.mv = ⟨0, 0⟩ ∧
      ∀ id, D.Ends keepPartialFlows id t.portConnection false r.portConnection false := by
  rcases mem_traverseStep_snd.1 hr with ⟨hend, rfl⟩ | ⟨hkeep, c, hc, n, hn, hwire, rfl⟩
  · exact ⟨hcircuit, hmv hcircuit, fun id => .inl ⟨hend, rfl, rfl⟩⟩
  · obtain ⟨ht, hrule⟩ := Bool.or_eq_false_iff.1 hcircuit
    rcases Connections.mem_followed.1 hn with hn | ⟨r, _, hn⟩
    · obtain ⟨_, hnmv, hconnect⟩ := Connections.mem_connectOutputs hn
      refine ⟨ht, ?_, fun id => .inr ⟨hkeep, c, n.port, false, hc, .connect hconnect, hwire, rfl,
        rfl⟩⟩
      show t.mv.restrict n.mv = _
      rw [hmv ht, hnmv]
      rfl
    · rw [(Connections.mem_ruleOutputs hn).1] at hrule
      cases hrule

end Traversal

/-! ## Termination -/

theorem finite_hop (D : Device) : {n | ∃ next, D.Hop n next}.Finite := by
  let sources (c : Connections) : List Port :=
    c.connects.map Prod.fst ++ c.packetRules.map PacketRules.source
  refine Set.Finite.subset (List.finite_toSet ((List.range D.ops.length).flatMap fun op =>
    ((D.connections op).toList.flatMap sources).map fun p => ⟨op, p⟩)) ?_
  rintro n ⟨next, c, hc, out, hout, _⟩
  have hop : n.op < D.ops.length := by
    by_contra hge
    rw [connections, List.getElem?_eq_none (not_lt.1 hge)] at hc
    cases hc
  have hsource : n.port ∈ sources c := by
    rcases List.mem_append.1 hout with hout | hout
    · obtain ⟨_, _, hconnect⟩ := Connections.mem_connectOutputs hout
      exact List.mem_append_left _ (List.mem_map.2 ⟨_, hconnect, rfl⟩)
    · obtain ⟨r, hr, _⟩ := List.mem_flatMap.1 hout
      obtain ⟨⟨rs, i⟩, hrs, hr⟩ := List.mem_flatMap.1 hr
      split_ifs at hr with hport
      · exact List.mem_append_right _
          (List.mem_map.2 ⟨rs, List.fst_mem_of_mem_zipIdx hrs, hport⟩)
      · cases hr
  exact List.mem_flatMap.2 ⟨n.op, List.mem_range.2 hop, List.mem_map.2
    ⟨n.port, List.mem_flatMap.2 ⟨c, Option.mem_toList.2 hc, hsource⟩, rfl⟩⟩

theorem mem_of_mem_followed {mv : MaskValue} {taken : Option HopOp} {ns : List PortMaskValue}
    {n : PortMaskValue} (h : n ∈ followed mv taken ns) : n ∈ ns := by
  induction ns generalizing taken with
  | nil => cases h
  | cons m ns ih =>
    rw [followed] at h
    split_ifs at h
    · exact List.mem_cons_of_mem m (ih h)
    · exact List.mem_cons_of_mem m (ih h)
    all_goals
      rcases List.mem_cons.1 h with rfl | h
      · exact List.mem_cons_self
      · exact List.mem_cons_of_mem m (ih h)

theorem hop_of_leads (ht : Leads (D.traverseStep keepPartialFlows) t t') :
    D.Hop t.portConnection t'.portConnection := by
  obtain ⟨c, hc, n, hn, next, hnext, rfl⟩ := leads_iff.1 ht
  exact ⟨c, hc, n, mem_of_mem_followed hn, hnext⟩

/-- **A traversal ends** where no route leads back to where it was. -/
theorem exists_getConnectedTiles (hacyclic : D.NoCycle) (keepPartialFlows : Bool) (tile : ℕ)
    (port : Port) (claim : MaskValue) :
    ∃ n r, ∀ m ≥ n, D.getConnectedTiles keepPartialFlows m tile port claim = some r := by
  cases hwire : D.getConnectionThroughWire tile port with
  | none => exact ⟨0, [], fun m _ => by rw [getConnectedTiles, hwire]⟩
  | some start =>
    have hacc : ∀ t, Acc (fun y x => Leads (D.traverseStep keepPartialFlows) x y) t := by
      intro t
      have hport := acc_of_acyclic D.finite_hop hacyclic t.portConnection
      generalize hn : t.portConnection = n at hport
      induction hport generalizing t with
      | intro n _ ih =>
        subst hn
        exact .intro _ fun t' ht' => ih _ (hop_of_leads ht') t' rfl
    obtain ⟨n, r, hr⟩ := exists_drain (fun t (_ : t ∈ [startOf start claim]) => hacc t) []
    refine ⟨n, r, fun m hm => ?_⟩
    rw [getConnectedTiles, hwire]
    exact hr m hm

/-! ## The endpoints of a traversal -/

theorem mem_getConnectedTiles {fuel tile : ℕ} {port : Port} {claim : MaskValue}
    {r : List PacketConnection}
    (h : D.getConnectedTiles keepPartialFlows fuel tile port claim = some r)
    {c : PacketConnection} : c ∈ r ↔ ∃ start, D.getConnectionThroughWire tile port = some start ∧
      ∃ t, Relation.ReflTransGen (Leads (D.traverseStep keepPartialFlows)) (startOf start claim) t ∧
        c ∈ (D.traverseStep keepPartialFlows t).2 := by
  rw [getConnectedTiles] at h
  cases hwire : D.getConnectionThroughWire tile port with
  | none =>
    rw [hwire] at h
    cases h
    simp
  | some start =>
    rw [hwire] at h
    rw [mem_drain h]
    simp [startOf]

section Endpoints

variable {fuel tile k : ℕ} {port : Port} {r : List PacketConnection}

theorem NoFallThrough.directAt (h : D.NoFallThrough idMask tile port) (hid : id ≤ idMask)
    {start : PortConnection} (hwire : D.getConnectionThroughWire tile port = some start)
    (n : PortConnection) (b : Bool) (harrives : D.ArrivesFrom id start n b) :
    D.DirectAt idMask id n :=
  h id hid n b ⟨start, hwire, harrives⟩

/-- A traversal whose claim holds an id ends wherever its packet does. -/
theorem exists_endpoint {claim : MaskValue} (hdirect : D.NoFallThrough idMask tile port)
    (hid : id ≤ idMask) (hclaim : claim.Claims id)
    (h : D.getConnectedTiles keepPartialFlows fuel tile port claim = some r) {d : PortConnection}
    {b : Bool} (hreaches : D.Reaches keepPartialFlows id tile port d b) :
    ∃ c ∈ r, c.isPacket = b ∧ c.mv.Claims id ∧ c.portConnection = d := by
  obtain ⟨n, b', ⟨start, hwire, harrives⟩, hends⟩ := hreaches
  obtain ⟨t, ht, heq, hclaims⟩ := exists_leads_of_arrives keepPartialFlows
    (hdirect.directAt hid hwire) hclaim harrives
  cases heq
  obtain ⟨c, hc, hport, hpacket, hcclaims⟩ :=
    exists_mem_of_ends (hdirect.directAt hid hwire _ _ harrives) hclaims hends
  exact ⟨c, (mem_getConnectedTiles h).2 ⟨start, hwire, t, ht, hc⟩, hpacket, hcclaims, hport⟩

/-- **The traversal of an id ends where its packet does.** -/
theorem endpoint_iff_reaches (hdirect : D.NoFallThrough (2 ^ k - 1) tile port)
    (hid : id ≤ 2 ^ k - 1)
    (h : D.getConnectedTiles keepPartialFlows fuel tile port ⟨2 ^ k - 1, id⟩ = some r)
    {d : PortConnection} {b : Bool} :
    (∃ c ∈ r, c.isPacket = b ∧ c.portConnection = d) ↔
      D.Reaches keepPartialFlows id tile port d b := by
  have hclaim : (⟨2 ^ k - 1, id⟩ : MaskValue).Claims id := (claims_full hid).2 rfl
  constructor
  · rintro ⟨c, hc, rfl, rfl⟩
    obtain ⟨start, hwire, t, ht, hc⟩ := (mem_getConnectedTiles h).1 hc
    obtain ⟨harrives, hclaims, hfull⟩ := arrives_of_leads (hdirect.directAt hid hwire) hclaim
      (Nat.and_self _) ht
    exact ⟨t.portConnection, t.isPacket, ⟨start, hwire, harrives⟩,
      ends_of_mem (hdirect.directAt hid hwire _ _ harrives) hclaims hfull hc⟩
  · intro hreaches
    obtain ⟨c, hc, hpacket, _, hport⟩ := exists_endpoint hdirect hid hclaim h hreaches
    exact ⟨c, hc, hpacket, hport⟩

theorem circuit_iff_reaches (hdirect : D.NoFallThrough idMask tile port) (hid : id ≤ idMask)
    (h : D.getConnectedTiles keepPartialFlows fuel tile port ⟨0, 0⟩ = some r)
    {d : PortConnection} :
    (∃ c ∈ r, c.isPacket = false ∧ c.mv.Claims id ∧ c.portConnection = d) ↔
      D.Reaches keepPartialFlows id tile port d false := by
  constructor
  · rintro ⟨c, hc, hcircuit, _, rfl⟩
    obtain ⟨start, hwire, t, ht, hc⟩ := (mem_getConnectedTiles h).1 hc
    obtain ⟨hcircuit', _, hends⟩ := circuit_ends hc hcircuit fun hb => (circuit_arrives hb ht).1
    exact ⟨t.portConnection, false, ⟨start, hwire, (circuit_arrives hcircuit' ht).2 id⟩, hends id⟩
  · exact fun hreaches => exists_endpoint hdirect hid (claims_zero id) h hreaches

end Endpoints

/-- **The packet flows lifted from a port state what the switches do**, where no route is cyclic
and the rules the traversal follows for an id are its first match wherever its packet comes to:
with enough passes there are endpoints, a destination is claimed for an id exactly if a packet with
the id reaches it (and as a packet if a packet rule takes it on the way, as a circuit if not), and
cubes with different destinations share no id. -/
theorem liftedEndpoints_exact {tile k : ℕ} {port : Port} (hacyclic : D.NoCycle)
    (hdirect : D.NoFallThrough (2 ^ k - 1) tile port) (keepPartialFlows : Bool) :
    ∃ n, ∀ m ≥ n, ∃ result,
      D.liftedEndpoints keepPartialFlows false (2 ^ k - 1) m tile port = some result ∧
      (∀ id ≤ 2 ^ k - 1, ∀ d b,
        (∃ r ∈ result, r.isPacket = b ∧ r.mv.Claims id ∧ r.portConnection = d) ↔
          D.Reaches keepPartialFlows id tile port d b) ∧
      ∀ r ∈ result, ∀ r' ∈ result, r.isPacket = true → r'.isPacket = true →
        cubeDests result r.mv ≠ cubeDests result r'.mv →
          ∀ id ≤ 2 ^ k - 1, ¬ (r.mv.Claims id ∧ r'.mv.Claims id) := by
  obtain ⟨n₀, endpoints, hendpoints⟩ :=
    exists_getConnectedTiles hacyclic keepPartialFlows tile port ⟨0, 0⟩
  choose n trace htrace using fun id =>
    exists_getConnectedTiles hacyclic keepPartialFlows tile port ⟨2 ^ k - 1, id⟩
  refine ⟨n₀ ⊔ (Finset.range (2 ^ k - 1 + 1)).sup n, fun m hm => ?_⟩
  have hall := hendpoints m (le_sup_left.trans hm)
  have hids : ∀ id ∈ List.range (2 ^ k - 1 + 1),
      D.getConnectedTiles keepPartialFlows m tile port ⟨2 ^ k - 1, id⟩ = some (trace id) := by
    intro id hid
    refine htrace id m ((Finset.le_sup (f := n) ?_).trans (le_sup_right.trans hm))
    exact Finset.mem_range.mpr (List.mem_range.mp hid)
  set traces := (List.range (2 ^ k - 1 + 1)).map trace with htraces
  have hget : ∀ id ≤ 2 ^ k - 1, traces.getD id [] = trace id := by
    intro id hid
    rw [htraces, List.getD_eq_getElem?_getD, List.getElem?_map,
      List.getElem?_range (Nat.lt_succ_of_le hid), Option.map_some, Option.getD_some]
  have htraced : ∀ id ≤ 2 ^ k - 1, ∀ d b, (∃ c ∈ traces.getD id [], c.isPacket = b ∧
      c.portConnection = d) ↔ D.Reaches keepPartialFlows id tile port d b := by
    intro id hid d b
    rw [hget id hid]
    exact endpoint_iff_reaches hdirect hid
      (hids id (List.mem_range.mpr (Nat.lt_succ_of_le hid)))
  refine ⟨exactPacketEndpoints endpoints (2 ^ k - 1) (fun claim => traces.getD claim.value []) false,
    ?_, fun id hid d b => ?_, fun r hr r' hr' hp hp' hne id hid hclaims => hne ?_⟩
  · rw [liftedEndpoints, hall, mapM_eq_some hids]
    rfl
  · cases b
    · rw [← circuit_iff_reaches hdirect hid hall]
      refine exists_congr fun r => ?_
      constructor
      · rintro ⟨hr, hc, hrest⟩
        exact ⟨(mem_circuit_exactPacketEndpoints hc).mp hr, hc, hrest⟩
      · rintro ⟨hr, hc, hrest⟩
        exact ⟨(mem_circuit_exactPacketEndpoints hc).mpr hr, hc, hrest⟩
    · rw [← htraced id hid]
      refine exactPacketEndpoints_claims (fun i hi c hc hpacket => ?_) hid
      have hreaches := (htraced i hi c.portConnection true).mp ⟨c, hc, hpacket, rfl⟩
      obtain ⟨e, he, hepacket, _⟩ := exists_endpoint hdirect hi (claims_zero i) hall hreaches
      exact ⟨e, he, hepacket⟩
  · exact exactPacketEndpoints_disjoint hr hp hr' hp' hid hclaims.1 hclaims.2

/-! ## A core and a DMA -/

def coreToDma (rules : List PacketRule) : Device where
  ops := [.flowEndPoint, .switchbox
    { packetRules := [⟨⟨.Core, 0⟩, rules⟩], masterSets := [⟨⟨.DMA, 0⟩, [0]⟩] }]
  wires := [⟨0, .Core, 1, .Core⟩, ⟨0, .DMA, 1, .DMA⟩]

section CoreToDma

variable {rules : List PacketRule}

theorem coreToDma_connections {op : ℕ} {c : Connections}
    (h : (coreToDma rules).connections op = some c) : op = 1 ∧
      c = { packetRules := [⟨⟨.Core, 0⟩, rules⟩], masterSets := [⟨⟨.DMA, 0⟩, [0]⟩] } := by
  match op with
  | 0 => cases h
  | 1 => cases h; exact ⟨rfl, rfl⟩
  | op + 2 => cases h

theorem coreToDma_wire {p : Port} {next : PortConnection}
    (h : (coreToDma rules).getConnectionThroughWire 1 p = some next) : next.op = 0 := by
  obtain ⟨w, hw, hnext⟩ := List.exists_of_findSome?_eq_some h
  rw [Wire.follow] at hnext
  simp only [coreToDma, List.mem_cons, List.not_mem_nil, or_false] at hw
  rcases hw with rfl | rfl
  all_goals
    rw [if_neg (by simp)] at hnext
    split_ifs at hnext
    cases hnext
    rfl

theorem coreToDma_hop {n next : PortConnection} (h : (coreToDma rules).Hop n next) :
    n.op = 1 ∧ next.op = 0 := by
  obtain ⟨c, hc, out, _, hwire⟩ := h
  have hop := (coreToDma_connections hc).1
  exact ⟨hop, coreToDma_wire (hop ▸ hwire)⟩

theorem coreToDma_noCycle : (coreToDma rules).NoCycle := by
  intro n h
  obtain ⟨m, hhead, _⟩ := Relation.TransGen.head'_iff.1 h
  obtain ⟨m', _, htail⟩ := Relation.TransGen.tail'_iff.1 h
  have hone := (coreToDma_hop hhead).1
  rw [(coreToDma_hop htail).2] at hone
  cases hone

theorem coreToDma_arrivesFrom {id : ℕ} {n : PortConnection} {b : Bool}
    (h : (coreToDma rules).ArrivesFrom id ⟨1, .Core, 0⟩ n b) :
    n = ⟨1, .Core, 0⟩ ∨ n.op = 0 ∧ ∃ out packet c,
      (coreToDma rules).connections 1 = some c ∧ c.Forwards ⟨.Core, 0⟩ id out packet := by
  have hrun : ∀ p, Relation.ReflTransGen ((coreToDma rules).Moves id) (⟨1, .Core, 0⟩, false) p →
      p.1 = ⟨1, .Core, 0⟩ ∨ p.1.op = 0 ∧ ∃ out packet c,
        (coreToDma rules).connections 1 = some c ∧ c.Forwards ⟨.Core, 0⟩ id out packet := by
    intro p hp
    induction hp with
    | refl => exact .inl rfl
    | tail _ hmoves ih =>
      cases hmoves with
      | hop hc hout hwire =>
        have hop := (coreToDma_connections hc).1
        rcases ih with rfl | ⟨hzero, _⟩
        · exact .inr ⟨coreToDma_wire hwire, _, _, _, hc, hout⟩
        · rw [hzero] at hop
          cases hop
  exact hrun _ h

end CoreToDma

/-- The endpoints lifted from the core where it drops id 1 before a rule for every id. -/
theorem liftedEndpoints_drop_unsound :
    (coreToDma [⟨31, 1, 1⟩, ⟨0, 0, 0⟩]).NoCycle ∧
      ¬ ∀ result, (coreToDma [⟨31, 1, 1⟩, ⟨0, 0, 0⟩]).liftedEndpoints false false 31 3 0
        ⟨.Core, 0⟩ = some result → ∀ id ≤ 31, ∀ d,
          (∃ r ∈ result, r.mv.Claims id ∧ r.portConnection = d) ↔
            ∃ b, (coreToDma [⟨31, 1, 1⟩, ⟨0, 0, 0⟩]).Reaches false id 0 ⟨.Core, 0⟩ d b := by
  refine ⟨coreToDma_noCycle, fun h => ?_⟩
  have hrun : (coreToDma [⟨31, 1, 1⟩, ⟨0, 0, 0⟩]).liftedEndpoints false false 31 3 0 ⟨.Core, 0⟩ =
      some [{ portConnection := ⟨0, .DMA, 0⟩, mv := ⟨0, 0⟩,
              vias := [⟨1, ⟨.Core, 0⟩, ⟨.DMA, 0⟩⟩],
              usedOps := [.rule 1 0 1, .masterSet 1 0, .amsel 1 0], isPacket := true }] := by
    decide +kernel
  obtain ⟨_, n, _, ⟨start, hstart, harrives⟩, hends⟩ :=
    (h _ hrun 1 (by decide) ⟨0, .DMA, 0⟩).mp ⟨_, List.mem_singleton_self _, by decide, rfl⟩
  cases hstart
  rcases coreToDma_arrivesFrom harrives with rfl | ⟨_, out, packet, c, hc, hout⟩
  · rcases hends with ⟨hend, _⟩ | ⟨hkeep, _⟩
    · exact absurd hend (by decide)
    · cases hkeep
  · obtain ⟨_, rfl⟩ := coreToDma_connections hc
    cases hout with
    | connect hconnect => cases hconnect
    | @rule r m hr hm ha =>
      cases hr
      cases List.mem_singleton.mp hm
      exact absurd ha (by decide)

/-- Where the core's one rule is for id 1, the flow lifted from it is for id 1. -/
theorem liftedEndpoints_exact_coreToDma :
    ∃ n, ∀ m ≥ n, ∃ result,
      (coreToDma [⟨31, 1, 0⟩]).liftedEndpoints false false (2 ^ 5 - 1) m 0 ⟨.Core, 0⟩ =
        some result ∧
      (∀ id ≤ 2 ^ 5 - 1, ∀ d b,
        (∃ r ∈ result, r.isPacket = b ∧ r.mv.Claims id ∧ r.portConnection = d) ↔
          (coreToDma [⟨31, 1, 0⟩]).Reaches false id 0 ⟨.Core, 0⟩ d b) ∧
      ∀ r ∈ result, ∀ r' ∈ result, r.isPacket = true → r'.isPacket = true →
        cubeDests result r.mv ≠ cubeDests result r'.mv →
          ∀ id ≤ 2 ^ 5 - 1, ¬ (r.mv.Claims id ∧ r'.mv.Claims id) := by
  refine liftedEndpoints_exact coreToDma_noCycle ?_ false
  rintro id hid n b ⟨start, hstart, harrives⟩ c hc
  cases hstart
  obtain ⟨hop, rfl⟩ := coreToDma_connections hc
  rcases coreToDma_arrivesFrom harrives with rfl | ⟨hzero, _⟩
  · rintro r ⟨before, after, hrs, ⟨_, haccepts⟩, _⟩
    have hone : [(⟨0, 0, ⟨31, 1, 0⟩⟩ : PlacedRule)] = before ++ r :: after := hrs
    have hmem : r ∈ before ++ r :: after := List.mem_append_right before List.mem_cons_self
    rw [← hone] at hmem
    cases List.mem_singleton.mp hmem
    have hmatches : ∀ i ≤ 31, MaskValue.accepts ⟨31, i⟩ ⟨31, 1⟩ = true →
        PacketRule.Matches ⟨31, 1, 0⟩ i := by decide
    exact List.find?_cons_of_pos (decide_eq_true (hmatches id hid haccepts))
  · rw [hzero] at hop
    cases hop

end Device

end MlirAie.Flows
