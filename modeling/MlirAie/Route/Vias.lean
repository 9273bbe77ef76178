import MlirAie.Lib.Lists
import MlirAie.Route.Graph

/-!
# Splitting flows at their vias

A via pins a switchbox of a route, and the ports it is entered and left by. Each via becomes a local
flow, and each gap between two of them that no wire spans becomes a flow for the router to fill.

* `isDirectWire`, `isDirectShimMux`, `wireEndpoint`: what joins two ports;
* `Pinned`: the pieces form one path through the vias;
* `Straight`: no turn into the port a gap comes from, no port that is left twice.
-/

namespace MlirAie.Vias

open MlirAie.Lib MlirAie.Route

/-! ## Devices -/

/-- What is read of a target model; shims are in the lowest row. -/
structure Target where
  columns : ℕ
  rows : ℕ
  isShimNOCorPLTile : TileID → Bool
  shim_row : ∀ t, isShimNOCorPLTile t = true → t.row = 0

structure Via where
  tile : TileID
  ingress : Port
  egress : Port
deriving DecidableEq

def Via.entry (v : Via) : PhysPort := ⟨v.tile, v.ingress⟩

def Via.exit (v : Via) : PhysPort := ⟨v.tile, v.egress⟩

variable (T : Target)

def Target.isValidTile (t : TileID) : Bool := t.col < T.columns && t.row < T.rows

/-- One source, one destination and the vias between them, on tiles of the device. -/
structure Section where
  source : PhysPort
  vias : List Via
  dest : PhysPort
  valid : ∀ v ∈ vias, T.isValidTile v.tile = true

structure FlowOp where
  source : PhysPort
  dest : PhysPort
deriving DecidableEq

structure PacketFlowOp where
  source : PhysPort
  dest : PhysPort
  id : ℕ
  mask : Option ℕ
  keepPktHeader : Option Bool
  priorityRoute : Option Bool
deriving DecidableEq

def PacketFlowOp.flow (f : PacketFlowOp) : FlowOp := ⟨f.source, f.dest⟩

structure PacketSection where
  ports : Section T
  id : ℕ
  mask : Option ℕ
  keepPktHeader : Option Bool
  priorityRoute : Option Bool

/-! ## Wires -/

def getConnectingBundle : WireBundle → WireBundle
  | .North => .South
  | .South => .North
  | .East => .West
  | .West => .East
  | dir => dir

def getConnectingWireEndpoint (p : PhysPort) : Option PhysPort :=
  let tile : Option TileID :=
    match p.port.bundle with
    | .North => some ⟨p.tile.col, p.tile.row + 1⟩
    | .South => if p.tile.row = 0 then none else some ⟨p.tile.col, p.tile.row - 1⟩
    | .East => some ⟨p.tile.col + 1, p.tile.row⟩
    | .West => if p.tile.col = 0 then none else some ⟨p.tile.col - 1, p.tile.row⟩
    | _ => none
  tile.bind fun t =>
    if T.isValidTile t then some ⟨t, ⟨getConnectingBundle p.port.bundle, p.port.channel⟩⟩ else none

def isDirectWire (src dst : PhysPort) : Bool :=
  src.port.channel = dst.port.channel &&
    (src.tile.col = dst.tile.col &&
        (src.port.bundle = .North && dst.port.bundle = .South && dst.tile.row = src.tile.row + 1 ||
          src.port.bundle = .South && dst.port.bundle = .North &&
            dst.tile.row + 1 = src.tile.row) ||
      src.tile.row = dst.tile.row &&
        (src.port.bundle = .East && dst.port.bundle = .West && dst.tile.col = src.tile.col + 1 ||
          src.port.bundle = .West && dst.port.bundle = .East &&
            dst.tile.col + 1 = src.tile.col))

def isDirectShimMux (src dst : PhysPort) : Bool :=
  if src.tile ≠ dst.tile || !T.isShimNOCorPLTile src.tile then false
  else if dst.port.bundle = .South then dst.port.channel = shimMuxChannelFrom src.port
  else if src.port.bundle = .South then src.port.channel = shimMuxChannelTo dst.port
  else false

def isDirection (b : WireBundle) : Bool :=
  b = .North || b = .South || b = .East || b = .West

/-- The other end of the wire, or the port itself where no wire leads to a neighbour. -/
def wireEndpoint (p : PhysPort) : Option PhysPort :=
  if isDirection p.port.bundle then getConnectingWireEndpoint T p else some p

/-! ## Pieces -/

/-- A flow that is emitted, and whether it takes over that packets keep their header. -/
structure Piece where
  src : PhysPort
  dst : PhysPort
  keeps : Bool
deriving DecidableEq

def emitRoutableSegment (src dst : PhysPort) (keeps : Bool) : List Piece :=
  if src = dst then [] else if isDirectWire src dst then [] else [⟨src, dst, keeps⟩]

def endpoint (p : PhysPort) (message : String) : Except String PhysPort :=
  match wireEndpoint T p with
  | some q => .ok q
  | none => .error message

/-- The gap from `src` to a via that no mux of a shim spans. -/
def emitGap (first : Bool) (src entry : PhysPort) : Except String (List Piece) := do
  let segmentSource ←
    (if !first && !isDirectWire src entry then endpoint T src "via egress has no neighboring tile"
     else .ok src)
  let wireSource ← endpoint T entry "via ingress has no neighboring tile"
  .ok (emitRoutableSegment segmentSource wireSource false)

/-- What the last gap is: the egress is followed to its neighbour, unless it is the destination. -/
def emitLast (src dest : PhysPort) : Except String (List Piece) := do
  let segmentSource ←
    (if src ≠ dest then endpoint T src "via egress has no neighboring tile" else .ok src)
  .ok (emitRoutableSegment segmentSource dest true)

/-- The ingress of the next via, or the destination. -/
def nextPort (dest : PhysPort) : List Via → PhysPort
  | [] => dest
  | v :: _ => v.entry

/-- Where the local flow of a via ends: a mux of a shim folds its egress. -/
def landing (exit next : PhysPort) : PhysPort := if isDirectShimMux T exit next then next else exit

/-- The pieces from the running source `src` on, through the vias; `first` before the first. -/
def splitFrom (dest : PhysPort) : Bool → PhysPort → List Via → Except String (List Piece)
  | _, src, [] => emitLast T src dest
  | first, src, v :: vias => do
    let foldIngress := isDirectShimMux T src v.entry
    let gap ← (if foldIngress then .ok [] else emitGap T first src v.entry)
    let localSrc := if foldIngress then src else v.entry
    let next := nextPort dest vias
    let localDst := landing T v.exit next
    let keeps := (isDirectShimMux T v.exit next && next = dest) || v.exit = dest
    let rest ← splitFrom dest false localDst vias
    .ok (gap ++ ⟨localSrc, localDst, keeps⟩ :: rest)

variable {T}

/-- The pieces of a section; one without vias stays as it is. -/
def Section.split (s : Section T) : Except String (List Piece) :=
  if s.vias.isEmpty then .ok [⟨s.source, s.dest, true⟩] else splitFrom T s.dest true s.source s.vias

def Piece.flow (p : Piece) : FlowOp := ⟨p.src, p.dst⟩

def Piece.packetFlow (pf : PacketSection T) (p : Piece) : PacketFlowOp :=
  ⟨p.src, p.dst, pf.id, pf.mask, if p.keeps then pf.keepPktHeader else none, pf.priorityRoute⟩

def splitFlow (s : Section T) : Except String (List FlowOp) := do
  let pieces ← s.split
  .ok (pieces.map Piece.flow)

def splitPacketFlow (pf : PacketSection T) : Except String (List PacketFlowOp) := do
  let pieces ← pf.ports.split
  .ok (pieces.map (Piece.packetFlow pf))

structure DeviceOp (T : Target) where
  flows : List (Section T)
  packetFlows : List (PacketSection T)

/-- `runOnOperation`: each flow with vias is replaced by its pieces. -/
def runOnOperation (device : DeviceOp T) :
    Except String (List (List FlowOp) × List (List PacketFlowOp)) := do
  let flows ← device.flows.mapM splitFlow
  let packetFlows ← device.packetFlows.mapM splitPacketFlow
  .ok (flows, packetFlows)

/-! ## Routes -/

def Wired (T : Target) (src dst : PhysPort) : Prop := getConnectingWireEndpoint T src = some dst

/-- The mux of a shim carries a source of the route into the switchbox. -/
def MuxIn (T : Target) (src entry : PhysPort) : Prop :=
  src.tile = entry.tile ∧ T.isShimNOCorPLTile src.tile = true ∧ isMuxed src.port = true ∧
    entry.port = ⟨.South, shimMuxChannelFrom src.port⟩

/-- The mux of a shim carries an output of the switchbox to a destination. -/
def MuxOut (T : Target) (exit dst : PhysPort) : Prop :=
  exit.tile = dst.tile ∧ T.isShimNOCorPLTile exit.tile = true ∧ isMuxed dst.port = true ∧
    exit.port = ⟨.South, shimMuxChannelTo dst.port⟩

/-- The flow enters and leaves the switchbox of the via by its ports. -/
def Crosses (T : Target) (v : Via) (f : FlowOp) : Prop :=
  (f.source = v.entry ∨ MuxIn T f.source v.entry) ∧ (f.dest = v.exit ∨ MuxOut T v.exit f.dest)

/-- A wire or the mux of a shim leads from one port to the other. -/
def Joined (T : Target) (src dst : PhysPort) : Prop :=
  Wired T src dst ∨ MuxIn T src dst ∨ MuxOut T src dst

/-- From the port that a flow ended at: each flow is joined to the next. -/
def Follows (T : Target) : PhysPort → List FlowOp → PhysPort → Prop
  | src, [], dest => src = dest
  | src, f :: flows, dest => Joined T src f.source ∧ Follows T f.dest flows dest

/-- **The pinned route**: one path from the source to the destination, that crosses the vias in
order, and no port at which two flows end. -/
structure Pinned (s : Section T) (flows : List FlowOp) : Prop where
  path : ∃ f rest, flows = f :: rest ∧ f.source = s.source ∧ Follows T f.dest rest s.dest
  crosses : ∃ crossings : List FlowOp, crossings.Sublist flows ∧
    List.Forall₂ (Crosses T) s.vias crossings
  distinct : (flows.map (·.dest)).Nodup

/-! ## Straight routes -/

/-- The source is the ingress of the first via, or the mux of a shim carries it there, or a wire
leads to the ingress from a port that is not named as the source is. -/
def EntersWell (T : Target) (source entry : PhysPort) : Prop :=
  source = entry ∨ MuxIn T source entry ∨
    isDirection entry.port.bundle = true ∧ isDirectShimMux T source entry = false ∧
      ¬ Wired T entry source

/-- Wires lead from the egress and to the ingress, and the route does not turn at the other end. -/
def PassesWell (T : Target) (exit entry : PhysPort) : Prop :=
  isDirection exit.port.bundle = true ∧ isDirection entry.port.bundle = true ∧
    isDirectShimMux T exit entry = false ∧ exit ≠ entry

/-- The egress of the last via is the destination, or the mux of a shim carries it there, or a wire
leads from the egress to a port that is not named as the destination is. -/
def LeavesWell (T : Target) (exit dest : PhysPort) : Prop :=
  exit = dest ∨ MuxOut T exit dest ∨
    isDirection exit.port.bundle = true ∧ isDirectShimMux T exit dest = false ∧
      ¬ Wired T exit dest

def GapsWell (T : Target) (dest : PhysPort) : PhysPort → List Via → Prop
  | exit, [] => LeavesWell T exit dest
  | exit, v :: vias => PassesWell T exit v.entry ∧ GapsWell T dest v.exit vias

/-- The port that a wire to the ingress starts at. -/
def wiredFrom (T : Target) (entry : PhysPort) : List PhysPort :=
  (getConnectingWireEndpoint T entry).toList

/-- The ports that the route is led to behind an egress. -/
def outputsBehind (T : Target) (dest : PhysPort) : PhysPort → List Via → List PhysPort
  | exit, [] => if exit = dest ∨ isDirectShimMux T exit dest then [] else [dest]
  | exit, v :: vias =>
    (if isDirectWire exit v.entry then [] else wiredFrom T v.entry) ++
      landing T v.exit (nextPort dest vias) :: outputsBehind T dest v.exit vias

/-- The ports that the route is led to: before each via the one wired to its ingress, its egress,
and the destination. -/
def outputs (s : Section T) : List PhysPort :=
  match s.vias with
  | [] => [s.dest]
  | v :: vias =>
    (if s.source = v.entry ∨ isDirectShimMux T s.source v.entry then [] else wiredFrom T v.entry) ++
      landing T v.exit (nextPort s.dest vias) :: outputsBehind T s.dest v.exit vias

/-- **Straight routes.** -/
structure Straight (s : Section T) : Prop where
  gaps : ∀ v vias, s.vias = v :: vias →
    EntersWell T s.source v.entry ∧ GapsWell T s.dest v.exit vias
  distinct : (outputs s).Nodup

end MlirAie.Vias
