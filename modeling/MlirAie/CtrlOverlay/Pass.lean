import MlirAie.Route.Port

/-!
# Generating a column control overlay

The pass that declares, per column, the packet flows control packets are streamed over: requests
from the shim DMA to the TileControl port of each tile, and responses back to the shim.

* `Device`, `Module`: the tiles, flows and symbols the pass reads and writes, in devices without
  switchboxes (no packet is routed in them yet, so no device carries an overlay and every flow is
  declared);
* `generatePacketFlowsForControl`: the flows and shim DMA allocations of one column;
* `applyOverlayToDevice`, `runOnOperation`: the columns of a device, and the devices of a module
  with the standalone overlay they share.
-/

namespace MlirAie.CtrlOverlay

open Route

/-! ## Targets -/

inductive AIETileType
  | CoreTile
  | MemTile
  | ShimNOCTile
  | ShimPLTile
deriving DecidableEq, Repr

structure TargetModel where
  isAIE1 : Bool
  columns : ℕ
  rows : ℕ
  tileType : TileID → AIETileType
  numSourceShimMuxConnections : TileID → WireBundle → ℕ
  numDestShimMuxConnections : TileID → WireBundle → ℕ

namespace TargetModel

variable (target : TargetModel)

def isShimNOCTile (t : TileID) : Bool := target.tileType t == .ShimNOCTile

def isShimNOCorPLTile (t : TileID) : Bool :=
  target.tileType t == .ShimNOCTile || target.tileType t == .ShimPLTile

def validTileIds : List ℕ := [15, 26, 27, 29, 30, 31]

/-- `getTileToControllerIdMap(true)`; the map gives `0` for tiles it does not have. -/
def tileToControllerId (t : TileID) : ℕ :=
  if t.col < target.columns ∧ t.row < target.rows then
    if target.rows ≤ 6 then validTileIds.getD t.row 0 else t.row
  else 0

def firstShimNOCTile : TileID :=
  let tiles := (List.range target.rows).flatMap fun r => (List.range target.columns).map (⟨·, r⟩)
  (tiles.find? target.isShimNOCTile).getD ⟨0, 0⟩

def thresholdsToNextShimChannel : List ℕ :=
  let n := target.numSourceShimMuxConnections target.firstShimNOCTile .DMA
  (List.range n).map fun i => target.rows / n * (i + 1)

def dmaShimChans : List ℕ :=
  ((List.range target.rows).foldl (fun (acc : ℕ × List ℕ) r =>
    let shimChanIdx :=
      if target.thresholdsToNextShimChannel.getD acc.1 0 ≤ r then acc.1 + 1 else acc.1
    (shimChanIdx, acc.2 ++ [shimChanIdx])) (0, [])).2

/-- `getRowToShimChanMap`. -/
def rowToShimChan (bundle : WireBundle) (row : ℕ) : ℕ :=
  if bundle = .DMA then target.dmaShimChans.getD row 0 else 0

end TargetModel

/-! ## Devices -/

/-- `aie.tile`: the packet id of its `controller_id`, and the ports of the `aie.flow`s that start
and end at it. -/
structure TileOp where
  tileID : TileID
  controllerId : Option ℕ := none
  flowSources : List Port := []
  flowDests : List Port := []
deriving DecidableEq, Repr

def TileOp.clone (t : TileOp) : TileOp := { t with flowSources := [], flowDests := [] }

/-- An end of a packet flow; the tile is `none` where it is not placed yet. -/
structure Endpoint where
  tile : Option TileID
  port : Port
deriving DecidableEq, Repr

structure PacketFlowOp where
  id : BitVec 8
  sources : List Endpoint
  dests : List Endpoint
  keepPktHeader : Option Bool
  priorityRoute : Option Bool
deriving DecidableEq, Repr

structure CtrlFlowKey where
  id : ℤ
  source : PhysPort
  dest : PhysPort
deriving DecidableEq, Repr

def PacketFlowOp.key (f : PacketFlowOp) : Option CtrlFlowKey :=
  match f.sources, f.dests with
  | [source], [dest] => do
    let sourceTile ← source.tile
    let destTile ← dest.tile
    return ⟨f.id.toInt, ⟨sourceTile, source.port⟩, ⟨destTile, dest.port⟩⟩
  | _, _ => none

inductive DMAChannelDir
  | S2MM
  | MM2S
deriving DecidableEq, Repr

/-- `aie.shim_dma_allocation`. -/
structure ShimDMAAllocation where
  symName : String
  tile : Option TileID
  channelDir : DMAChannelDir
  channelIndex : ℕ
  plio : Bool
deriving DecidableEq, Repr

inductive Symbol
  | allocation (a : ShimDMAAllocation)
  | routeEndpoint (symName : String) (tile : Option TileID)
  | other (symName : String)
deriving DecidableEq, Repr

def Symbol.symName : Symbol → String
  | .allocation a => a.symName
  | .routeEndpoint symName _ => symName
  | .other symName => symName

/-- The operations of runtime sequences that can ask a task-complete token of a tile. -/
inductive TaskOp
  | configureTask (issueToken : Bool) (tile : Option TileID)
  | configureTaskFor (issueToken : Bool) (alloc : String)
  | npuPushQueue (issueToken : Bool) (column row : ℕ)
deriving DecidableEq, Repr

/-- A device without switchboxes, of a target named in `δ`. -/
structure Device (δ : Type) where
  symName : String
  device : δ
  needsCtrlPktOverlay : Option Bool := none
  hasCtrlPktOverlay : Option Bool := none
  tiles : List TileOp := []
  packetFlows : List PacketFlowOp := []
  symbols : List Symbol := []
  tasks : List TaskOp := []

/-- The devices of a module, and the names of its other symbols. -/
structure Module (δ : Type) where
  devices : List (Device δ)
  symbols : List String := []

inductive RouteShimCTRLToTCT
  | shimOnly
  | allTiles
  | disable
deriving DecidableEq, Repr

structure Options where
  routeShimCTRLToTCT : RouteShimCTRLToTCT := .shimOnly
  routeShimDmaToTileCTRL : Bool := false
  emitStandaloneOverlay : Bool := false

variable {δ : Type}

namespace Device

def lookupSymbol (d : Device δ) (name : String) : Option Symbol :=
  d.symbols.find? fun s => s.symName = name

/-- `TileOp::getOrCreate`. -/
def getOrCreate (d : Device δ) (t : TileID) : Device δ × TileOp :=
  match d.tiles.find? fun op => op.tileID = t with
  | some op => (d, op)
  | none => ({ d with tiles := { tileID := t } :: d.tiles }, { tileID := t })

end Device

/-! ## Flows of one column -/

def controllerID (target : TargetModel) (t : TileOp) : ℕ :=
  match t.controllerId with
  | some id => id
  | none => target.tileToControllerId t.tileID

def getCtrlPktAllocName (col : ℕ) (isShimMM2S : Bool) (chan : ℕ) : String :=
  "ctrlpkt" ++ ("_col" ++ toString col) ++ (if isShimMM2S then "_mm2s" else "_s2mm") ++
    ("_chan" ++ toString chan)

/-- The shim channels no `aie.flow` reserves. -/
def getAvailableShimChans (target : TargetModel) (shimTile : TileOp) (shimWireBundle : WireBundle)
    (isShimMM2S : Bool) : List ℕ :=
  let flowOpUsers := if isShimMM2S then shimTile.flowSources else shimTile.flowDests
  let numShimChans :=
    if isShimMM2S then target.numSourceShimMuxConnections shimTile.tileID shimWireBundle
    else target.numDestShimMuxConnections shimTile.tileID shimWireBundle
  (List.range numShimChans).filter fun i => !flowOpUsers.contains ⟨shimWireBundle, i⟩

/-- The first flow with the key adopts the attributes of the overlay; where there is none, one is
created. -/
def declareFlow (id : ℕ) (source dest : PhysPort) : List PacketFlowOp → List PacketFlowOp
  | [] => [⟨BitVec.ofNat 8 id, [⟨some source.tile, source.port⟩], [⟨some dest.tile, dest.port⟩],
      some true, some true⟩]
  | f :: fs =>
    if f.key = some ⟨id, source, dest⟩ then
      { f with keepPktHeader := some true, priorityRoute := some true } :: fs
    else f :: declareFlow id source dest fs

/-- The shim DMA allocation control packets to `t` are issued through. -/
def ctrlAllocation (target : TargetModel) (shimTile : TileID) (shimWireBundle : WireBundle)
    (isShimMM2S : Bool) (t : TileID) : ShimDMAAllocation where
  symName := getCtrlPktAllocName shimTile.col isShimMM2S (target.rowToShimChan shimWireBundle t.row)
  tile := some shimTile
  channelDir := if isShimMM2S then .MM2S else .S2MM
  channelIndex := target.rowToShimChan shimWireBundle t.row
  plio := false

/-- The error where a shim channel is taken. -/
def reservedError : String :=
  "failed to generate column control overlay from shim dma to tile ctrl ports, because some " ++
    "shim mm2s dma channels were reserved from routing control packets."

def generatePacketFlow (target : TargetModel) (shimTile : TileID) (shimWireBundle : WireBundle)
    (ctrlPort : Port) (isShimMM2S : Bool) (availableShimChans : List ℕ) (d : Device δ)
    (t : TileOp) : Except String (Device δ) :=
  let ctrlPktFlowID := controllerID target t
  let shimChan := target.rowToShimChan shimWireBundle t.tileID.row
  if !availableShimChans.contains shimChan then .error reservedError
  else
    let shim : PhysPort := ⟨shimTile, ⟨shimWireBundle, shimChan⟩⟩
    let ctrl : PhysPort := ⟨t.tileID, ctrlPort⟩
    let packetFlows :=
      if isShimMM2S then declareFlow ctrlPktFlowID shim ctrl d.packetFlows
      else declareFlow ctrlPktFlowID ctrl shim d.packetFlows
    let d := { d with packetFlows }
    if shimWireBundle ≠ .DMA then .ok d
    else
      let alloc := ctrlAllocation target shimTile shimWireBundle isShimMM2S t.tileID
      if (d.lookupSymbol alloc.symName).isSome then .ok d
      else .ok { d with symbols := d.symbols ++ [.allocation alloc] }

def generatePacketFlowsForControl (target : TargetModel) (shimTile : TileOp)
    (shimWireBundle : WireBundle) (ctrlTiles : List TileOp) (ctrlPort : Port) (isShimMM2S : Bool)
    (d : Device δ) : Except String (Device δ) :=
  ctrlTiles.foldlM (generatePacketFlow target shimTile.tileID shimWireBundle ctrlPort isShimMM2S
    (getAvailableShimChans target shimTile shimWireBundle isShimMM2S)) d

/-! ## Columns of a device -/

/-- `tiles[t.tileID] = t` of the map from coordinates to tiles, which keeps the order of its
keys. -/
def assignTile (tiles : List TileOp) (t : TileOp) : List TileOp :=
  if tiles.any fun op => op.tileID = t.tileID then
    tiles.map fun op => if op.tileID = t.tileID then t else op
  else tiles ++ [t]

/-- The columns the overlay covers: with requests, all between the leftmost and the rightmost
occupied one. -/
def colsToCover (opts : Options) (tiles : List TileOp) : List ℕ :=
  let cols := tiles.map fun t => t.tileID.col
  if opts.routeShimDmaToTileCTRL then
    match cols with
    | [] => []
    | col :: cols =>
      let minOccupiedCol := cols.foldl min col
      let maxOccupiedCol := cols.foldl max col
      List.range' minOccupiedCol (maxOccupiedCol + 1 - minOccupiedCol)
  else cols.dedup

def routesResponse (opts : Options) (target : TargetModel) (tokenTiles : List TileID)
    (t : TileID) : Bool :=
  match opts.routeShimCTRLToTCT with
  | .allTiles => true
  | .shimOnly => target.isShimNOCorPLTile t || tokenTiles.contains t
  | .disable => false

/-- The highest of some rows, at least the shim's. -/
def maxRow (tiles : List TileOp) : ℕ := (tiles.map fun t => t.tileID.row).foldl max 0

def getOrCreateRows (col : ℕ) : List ℕ → Device δ → Device δ × List TileOp
  | [], d => (d, [])
  | row :: rows, d =>
    let (d, t) := d.getOrCreate ⟨col, row⟩
    let (d, ts) := getOrCreateRows col rows d
    (d, t :: ts)

section Apply

variable (opts : Options) (target : TargetModel) (tokenTiles : List TileID)

def coverResponses (col : ℕ) (shimTile : TileOp) (tiles : List TileOp) (d : Device δ) :
    Except String (Device δ) :=
  if opts.routeShimCTRLToTCT = .allTiles ∨ opts.routeShimCTRLToTCT = .shimOnly then
    let tilesOnCol := tiles.filter fun t =>
      t.tileID.col = col && routesResponse opts target tokenTiles t.tileID
    if tilesOnCol.isEmpty then .ok d
    else generatePacketFlowsForControl target shimTile .South tilesOnCol ⟨.TileControl, 0⟩ false d
  else .ok d

/-- The requests of a column, to every row from the shim to its highest tile. A column the design
declared no tile in is covered up to the highest row in use. -/
def coverRequests (declaredCols : List ℕ) (maxOccupiedRow col : ℕ) (shimTile : TileOp)
    (tiles : List TileOp) (d : Device δ) : Except String (Device δ) :=
  if opts.routeShimDmaToTileCTRL then
    let row :=
      if declaredCols.contains col then maxRow (tiles.filter fun t => t.tileID.col = col)
      else maxOccupiedRow
    let (d, tilesOnCol) := getOrCreateRows col (List.range (row + 1)) d
    generatePacketFlowsForControl target shimTile .DMA tilesOnCol ⟨.TileControl, 0⟩ true d
  else .ok d

/-- One column: its shim tile, its responses and its requests. -/
def coverColumn (declaredCols : List ℕ) (maxOccupiedRow : ℕ) (state : Device δ × List TileOp)
    (col : ℕ) : Except String (Device δ × List TileOp) := do
  let (d, shimTile) := state.1.getOrCreate ⟨col, 0⟩
  let tiles := if opts.routeShimDmaToTileCTRL then assignTile state.2 shimTile else state.2
  let d ← coverResponses opts target tokenTiles col shimTile tiles d
  let d ← coverRequests opts target declaredCols maxOccupiedRow col shimTile tiles d
  return (d, tiles)

def applyOverlayToDevice (d : Device δ) : Except String (Device δ) :=
  if target.isAIE1 then .ok d
  else
    let tiles := d.tiles.foldl assignTile []
    let declaredCols := tiles.map fun t => t.tileID.col
    (Prod.fst <$> (colsToCover opts tiles).foldlM
      (coverColumn opts target tokenTiles declaredCols (maxRow tiles)) (d, tiles))

end Apply

/-! ## Devices of a module -/

/-- Every tile of `protos` not already present in the device, cloned at its start. -/
def Device.cloneMissingTiles (d : Device δ) (protos : List TileOp) : Device δ :=
  let missing := protos.filter fun p => d.tiles.all fun t => t.tileID ≠ p.tileID
  { d with tiles := missing.map TileOp.clone ++ d.tiles }

def collectTileUnion (devices : List (Device δ)) : List TileOp :=
  (devices.flatMap Device.tiles).foldl (fun protos t =>
    if protos.any fun p => p.tileID = t.tileID then protos else protos ++ [t]) []

/-- Give every device the union of their tiles, so an overlay routed onto any of them has the same
shape. -/
def shareTilesAcrossDevices (devices : List (Device δ)) : List (Device δ) :=
  devices.map fun d => d.cloneMissingTiles (collectTileUnion devices)

def Device.tokenTiles (d : Device δ) : List TileID :=
  d.tasks.filterMap fun
    | .configureTask issueToken tile => if issueToken then tile else none
    | .configureTaskFor issueToken alloc =>
      if issueToken then
        match d.lookupSymbol alloc with
        | some (.routeEndpoint _ tile) => tile
        | _ => none
      else none
    | .npuPushQueue issueToken column row => if issueToken then some ⟨column, row⟩ else none

def collectTokenIssuingTiles (devices : List (Device δ)) : List TileID :=
  devices.flatMap Device.tokenTiles

/-- A device receives the overlay unless it is one generated before or opted out. It does not carry
a control overlay already, as nothing in it is routed. -/
def Device.participates (d : Device δ) : Bool :=
  d.symName ≠ "ctrl_pkt_overlay" && d.needsCtrlPktOverlay ≠ some false

def Device.optedOut (d : Device δ) : Bool :=
  d.symName ≠ "ctrl_pkt_overlay" && d.needsCtrlPktOverlay = some false

variable [DecidableEq δ] (getTargetModel : δ → TargetModel) (opts : Options)

/-- The standalone `@ctrl_pkt_overlay` device, which holds only the overlay and the union of the
tiles it references. -/
def createOverlayDevice (m : Module δ) (participating : List (Device δ))
    (tokenTiles : List TileID) : Except String (List (Device δ)) :=
  match participating with
  | [] => .ok []
  | firstDev :: rest => do
    if rest.any fun d => d.device ≠ firstDev.device then
      .error ("cannot generate a single standalone ctrl_pkt_overlay device: participating " ++
        "devices have mismatched target architectures.")
    else if m.devices.any (fun d => d.symName = "ctrl_pkt_overlay") ||
        m.symbols.contains "ctrl_pkt_overlay" then
      .error ("a symbol named `ctrl_pkt_overlay` already exists in the module; cannot create a " ++
        "standalone ctrl_pkt_overlay device.")
    else
      let overlayDevice : Device δ := { symName := "ctrl_pkt_overlay", device := firstDev.device }
      let overlayDevice := overlayDevice.cloneMissingTiles (collectTileUnion participating)
      let overlayDevice ← applyOverlayToDevice opts (getTargetModel firstDev.device) tokenTiles
        overlayDevice
      return [{ overlayDevice with hasCtrlPktOverlay := some true }]

def applyToParticipating (sharedTokenTiles : List TileID) (d : Device δ) :
    Except String (Device δ) := do
  let tokenTiles :=
    if opts.emitStandaloneOverlay then sharedTokenTiles else collectTokenIssuingTiles [d]
  let d ← applyOverlayToDevice opts (getTargetModel d.device) tokenTiles d
  return if opts.emitStandaloneOverlay then { d with hasCtrlPktOverlay := some true } else d

/-- What the pass leaves: the participating devices, the others and the standalone overlay. -/
structure Result (δ : Type) where
  participating : List (Device δ)
  others : List (Device δ)
  overlay : List (Device δ)

def runOnOperation (m : Module δ) : Except String (Result δ) := do
  let participating := m.devices.filter Device.participates
  let others := (m.devices.filter fun d => !d.participates).map fun d =>
    if d.optedOut && opts.emitStandaloneOverlay then { d with hasCtrlPktOverlay := some false }
    else d
  let participating :=
    if opts.emitStandaloneOverlay then shareTilesAcrossDevices participating else participating
  let sharedTokenTiles :=
    if opts.emitStandaloneOverlay then collectTokenIssuingTiles participating else []
  let participating ← participating.mapM (applyToParticipating getTargetModel opts sharedTokenTiles)
  let overlay ←
    if opts.emitStandaloneOverlay then
      createOverlayDevice getTargetModel opts m participating sharedTokenTiles
    else .ok []
  return { participating, others, overlay }

end MlirAie.CtrlOverlay
