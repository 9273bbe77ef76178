import MlirAie.Lib.Drain
import MlirAie.Route.Port

/-!
# Following the configured routes

What the switchboxes and shim muxes of a device connect, and the traversal of it from a source,
which carries the packet ids it follows as a mask and a value.

* `Device`: the ops with ports, and the wires between them;
* `getConnectionsThroughSwitchbox`: the outputs of a source port, in slot order;
* `maskSwitchboxConnections`: those that ids of a claim can take;
* `traverse`: the endpoints the claim reaches.

Sections are not split here, as where no vias are emitted.
-/

namespace MlirAie.Flows

open Lib Route

/-- `aie.rule`: ids that agree with `value` on the bits of `mask` take the amsel. -/
structure PacketRule where
  mask : ℕ
  value : ℕ
  amsel : ℕ
deriving DecidableEq, Repr

/-- `aie.packet_rules`: the rules of a slave port, in slot order. -/
structure PacketRules where
  source : Port
  rules : List PacketRule
deriving DecidableEq, Repr

/-- `aie.masterset`: a master port, and the amsels it listens to. -/
structure MasterSet where
  dest : Port
  amsels : List ℕ
deriving DecidableEq, Repr

/-- The connections of a switchbox or shim mux: `aie.connect` from a source to a destination, the
packet rules and the master sets. -/
structure Connections where
  connects : List (Port × Port) := []
  packetRules : List PacketRules := []
  masterSets : List MasterSet := []
deriving DecidableEq, Repr

inductive DeviceOp
  | flowEndPoint
  | switchbox (c : Connections)
  | shimMux (c : Connections)
  | other
deriving DecidableEq, Repr

/-- `aie.wire`: joins two bundles, channel by channel. -/
structure Wire where
  source : ℕ
  sourceBundle : WireBundle
  dest : ℕ
  destBundle : WireBundle
deriving DecidableEq, Repr

/-- The ops, by index, and the wires between them. -/
structure Device where
  ops : List DeviceOp
  wires : List Wire
deriving DecidableEq, Repr

/-- The ids that agree with `value` on the bits of `mask`. -/
structure MaskValue where
  mask : ℕ
  value : ℕ
deriving DecidableEq, Repr

structure PortConnection where
  op : ℕ
  port : Port
deriving DecidableEq, Repr

/-- The ops that implement a hop, by their place in the interconnect. -/
inductive HopOp
  | connect (op i : ℕ)
  | rule (op i j : ℕ)
  | masterSet (op k : ℕ)
  | amsel (op a : ℕ)
deriving DecidableEq, Repr

structure PortMaskValue where
  port : Port
  mv : MaskValue
  ops : List HopOp
deriving DecidableEq, Repr

def PortMaskValue.rule (n : PortMaskValue) : Option HopOp :=
  match n.ops.head? with
  | some (.rule op i j) => some (.rule op i j)
  | _ => none

/-- A stop of a flow: the switchbox, and the ports it uses there. -/
structure Via where
  tile : ℕ
  ingress : Port
  egress : Port
deriving DecidableEq, Repr

/-- Where a traversal has come to, with the ids it follows, and how it came there. -/
structure PacketConnection where
  portConnection : PortConnection
  mv : MaskValue
  vias : List Via := []
  usedOps : List HopOp := []
  isPacket : Bool := false
deriving DecidableEq, Repr

/-- The far end of a wire from a port. -/
def Wire.follow (w : Wire) (op : ℕ) (p : Port) : Option PortConnection :=
  if w.source = op ∧ w.sourceBundle = p.bundle then some ⟨w.dest, w.destBundle, p.channel⟩
  else if w.dest = op ∧ w.destBundle = p.bundle then some ⟨w.source, w.sourceBundle, p.channel⟩
  else none

namespace Device

variable (D : Device)

def getConnectionThroughWire (op : ℕ) (masterPort : Port) : Option PortConnection :=
  D.wires.findSome? fun w => w.follow op masterPort

def connections (op : ℕ) : Option Connections :=
  match D.ops[op]? with
  | some (.switchbox c) => some c
  | some (.shimMux c) => some c
  | _ => none

def isFlowEndPoint (op : ℕ) : Bool := D.ops[op]? = some .flowEndPoint

def viaOf (op : ℕ) (ingress egress : Port) : List Via :=
  match D.ops[op]? with
  | some (.switchbox _) => [⟨op, ingress, egress⟩]
  | _ => []

end Device

structure PlacedRule where
  i : ℕ
  j : ℕ
  rule : PacketRule
deriving DecidableEq, Repr

namespace Connections

variable (c : Connections)

def portRules (source : Port) : List PlacedRule :=
  c.packetRules.zipIdx.flatMap fun e =>
    if e.1.source = source then e.1.rules.zipIdx.map fun r => ⟨e.2, r.2, r.1⟩ else []

def ruleOutputs (op : ℕ) (r : PlacedRule) : List PortMaskValue :=
  c.masterSets.zipIdx.flatMap fun m =>
    (m.1.amsels.filter (· = r.rule.amsel)).map fun a =>
      ⟨m.1.dest, ⟨r.rule.mask, r.rule.value⟩, [.rule op r.i r.j, .masterSet op m.2, .amsel op a]⟩

def connectOutputs (op : ℕ) (source : Port) : List PortMaskValue :=
  (c.connects.zipIdx.filter fun e => e.1.1 = source).map fun e =>
    ⟨e.1.2, ⟨0, 0⟩, [.connect op e.2]⟩

def getConnectionsThroughSwitchbox (op : ℕ) (source : Port) : List PortMaskValue :=
  c.connectOutputs op source ++ (c.portRules source).flatMap (c.ruleOutputs op)

end Connections

namespace MaskValue

/-- Ids of the claim `mv` can take the hop. -/
def accepts (mv next : MaskValue) : Bool :=
  next.mask &&& mv.mask &&& next.value == next.mask &&& mv.mask &&& mv.value

/-- Every id of the claim that can take the hop does. -/
def decided (mv next : MaskValue) : Bool := next.mask &&& mv.mask == next.mask

/-- The ids of the claim that take the hop. -/
def restrict (mv next : MaskValue) : MaskValue :=
  ⟨mv.mask ||| next.mask, mv.value ||| next.mask &&& next.value⟩

def Claims (mv : MaskValue) (id : ℕ) : Prop := id &&& mv.mask = mv.value

instance (mv : MaskValue) (id : ℕ) : Decidable (mv.Claims id) := inferInstanceAs (Decidable (_ = _))

end MaskValue

/-- The hops that ids of a claim take. A slave port hands a packet to the first rule that matches
its id, so once a rule takes every id that can arrive, later rules get none. -/
def followed (mv : MaskValue) : Option HopOp → List PortMaskValue → List PortMaskValue
  | _, [] => []
  | takenBy, n :: ns =>
    if takenBy ≠ none ∧ n.rule ≠ takenBy then followed mv takenBy ns
    else if !mv.accepts n.mv then followed mv takenBy ns
    else
      let takenBy := if n.rule ≠ none ∧ mv.decided n.mv then n.rule else takenBy
      n :: followed mv takenBy ns

attribute [local simp] followed

namespace Device

variable (D : Device)

/-- The connection after a hop, at `next`. -/
def hop (t : PacketConnection) (n : PortMaskValue) (next : PortConnection) : PacketConnection where
  portConnection := next
  mv := t.mv.restrict n.mv
  vias := t.vias ++ D.viaOf t.portConnection.op t.portConnection.port n.port
  usedOps := t.usedOps ++ n.ops
  isPacket := t.isPacket || n.rule.isSome

/-- The connections a connection leads to through an interconnect. An output that no wire
continues is an endpoint under partial recovery. -/
def maskSwitchboxConnections (keepPartialFlows : Bool) (t : PacketConnection)
    (outputs : List PortMaskValue) : List PacketConnection × List PacketConnection :=
  let op := t.portConnection.op
  let hops := followed t.mv none outputs
  (hops.filterMap fun n => (D.getConnectionThroughWire op n.port).map (D.hop t n),
    if keepPartialFlows then
      (hops.filter fun n => D.getConnectionThroughWire op n.port = none).map fun n =>
        D.hop t n ⟨op, n.port⟩
    else [])

/-- One connection of the traversal: where it goes on, and the endpoints found. -/
def traverseStep (keepPartialFlows : Bool) (t : PacketConnection) :
    List PacketConnection × List PacketConnection :=
  if D.isFlowEndPoint t.portConnection.op then ([], [t])
  else
    match D.connections t.portConnection.op with
    | none => ([], [])
    | some c => D.maskSwitchboxConnections keepPartialFlows t
        (c.getConnectionsThroughSwitchbox t.portConnection.op t.portConnection.port)

/-- The endpoints a claim reaches, for at most a number of connections. -/
def traverse (keepPartialFlows : Bool) (fuel : ℕ) (worklist : List PacketConnection) :
    Option (List PacketConnection) :=
  drain (D.traverseStep keepPartialFlows) fuel worklist.reverse []

def getConnectedTiles (keepPartialFlows : Bool) (fuel tile : ℕ) (port : Port) (claim : MaskValue) :
    Option (List PacketConnection) :=
  match D.getConnectionThroughWire tile port with
  | none => some []
  | some t => D.traverse keepPartialFlows fuel [{ portConnection := t, mv := claim }]

end Device

end MlirAie.Flows
