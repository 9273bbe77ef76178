import MlirAie.Lib.Writes
import MlirAie.Route.Port

/-!
# Switchboxes and the settings they write

The operations of a switchbox, what a control-packet reload takes each of them to write, and the
calls that write them.

* `SwitchOp`, `Switchbox`: connects, master sets and packet rules, any of them of the overlay;
* `portSettings`, `verifyReloadKeepsOverlay`: the check of a reload against its overlay;
* `Call`, `configureSwitches`: the calls that configure the switchboxes of a device.
-/

namespace MlirAie.Overlay

open Route Lib

/-! ## Operations -/

/-- `aie.amsel`. -/
structure AMSel where
  arbiterIndex : ℕ
  mselValue : ℕ
deriving DecidableEq, Repr

/-- `aie.rule`, and whether it is marked `is_ctrl_pkt_overlay`. -/
structure PacketRule where
  maskInt : ℤ
  valueInt : ℤ
  amsel : AMSel
  isCtrlPktOverlay : Bool
deriving DecidableEq, Repr

/-- The operations in a switchbox, and whether each is marked `is_ctrl_pkt_overlay`. -/
inductive SwitchOp
  | connect (sourcePort destPort : Port) (isCtrlPktOverlay : Bool)
  | masterset (destPort : Port) (amsels : List AMSel) (keepPktHeader : Option Bool)
      (isCtrlPktOverlay : Bool)
  | packetRules (sourcePort : Port) (rules : List PacketRule) (isCtrlPktOverlay : Bool)
  | amsel (a : AMSel)
deriving DecidableEq, Repr

def SwitchOp.connectSource : SwitchOp → Option Port
  | .connect source _ _ => some source
  | _ => none

/-- The checks of `SwitchboxOp::verify` that compare ports: destinations are not shared, and a
packet switched source is no other operation's source. -/
def verifyPorts : List SwitchOp → List Port → List Port → Bool
  | [], _, _ => true
  | .connect _ dest _ :: ops, sourceset, destset =>
    !destset.contains dest && verifyPorts ops sourceset (dest :: destset)
  | .masterset dest _ _ _ :: ops, sourceset, destset =>
    !destset.contains dest && verifyPorts ops sourceset (dest :: destset)
  | .packetRules source _ _ :: ops, sourceset, destset =>
    !sourceset.contains source && verifyPorts ops (source :: sourceset) destset
  | .amsel _ :: ops, sourceset, destset => verifyPorts ops sourceset destset

/-- A switchbox on a placed tile. A circuit connection claims its source port wherever it
appears. -/
structure Switchbox where
  tile : TileID
  connections : List SwitchOp
  verified : verifyPorts connections (connections.filterMap SwitchOp.connectSource) [] = true := by
    decide

structure Device where
  symName : String
  switchboxes : List Switchbox

def keepsPktHeader (tile : TileID) (master : Port) (keep : Option Bool) : Bool :=
  match keep with
  | some keep => keep
  | none => master.bundle != .DMA && (tile.row != 0 || master.bundle != .South)

/-- The arbiter the amsels of a master set name, and the mask of their msels. -/
def foldAmsels (amsels : List AMSel) : ℤ × ℕ :=
  amsels.foldl (fun a amsel => (amsel.arbiterIndex, a.2 ||| 1 <<< amsel.mselValue)) (-1, 0)

/-! ## Settings -/

/-- A stream-switch setting: a port, or with `slot ≥ 0` one of its packet rule slots. -/
structure SwitchPort (π : Type) where
  tile : TileID
  master : Bool
  port : π
  slot : ℤ := -1
deriving DecidableEq, Repr

def SwitchPort.describe (p : SwitchPort Port) : String :=
  s!"tile ({p.tile.col}, {p.tile.row}) " ++ (if p.master then "master " else "slave ") ++
    s!"{p.port.bundle.stringify} : {p.port.channel}" ++
    if 0 ≤ p.slot then s!" slot {p.slot}" else ""

inductive SettingValue (π : Type)
  | circuitFrom (source : π)
  | circuit
  | packetMaster (arbiter : ℤ) (mask : ℕ) (keep : Bool)
  | packet
  | rule (value mask : ℤ) (amsel : AMSel)
deriving DecidableEq, Repr

def SettingValue.print : SettingValue Port → String
  | .circuitFrom source => "circuit " ++ source.bundle.stringify ++ " : " ++ toString source.channel
  | .circuit => "circuit"
  | .packetMaster arbiter mask keep =>
    "packet " ++ toString arbiter ++ "/" ++ toString mask ++ " " ++ if keep then "keep" else "drop"
  | .packet => "packet"
  | .rule value mask amsel =>
    toString value ++ "/" ++ toString mask ++ ">" ++ toString amsel.arbiterIndex ++ "." ++
      toString amsel.mselValue

attribute [local simp] SettingValue.print

/-- A setting an operation writes, and whether a reload skips it. -/
structure PortSetting where
  port : SwitchPort Port
  value : SettingValue Port
  skipped : Bool
deriving DecidableEq, Repr

/-- The settings `op` writes, and whether a reload skips each. Each packet rule fills one slot, and
a reload skips the rules marked `is_ctrl_pkt_overlay`. It skips enabling the port if it skips any of
them. -/
def portSettings (tile : TileID) : SwitchOp → List PortSetting
  | .connect source dest skipped =>
    [⟨⟨tile, true, dest, -1⟩, .circuitFrom source, skipped⟩,
      ⟨⟨tile, false, source, -1⟩, .circuit, skipped⟩]
  | .masterset dest amsels keep skipped =>
    let (arbiter, mask) := foldAmsels amsels
    [⟨⟨tile, true, dest, -1⟩, .packetMaster arbiter mask (keepsPktHeader tile dest keep), skipped⟩]
  | .packetRules source rules skipped =>
    -- an empty packet_rules op writes nothing to the hardware
    if rules.isEmpty then []
    else
      let anySkipped := skipped || rules.any PacketRule.isCtrlPktOverlay
      ⟨⟨tile, false, source, -1⟩, .packet, anySkipped⟩ :: rules.zipIdx.map fun (rule, slot) =>
        ⟨⟨tile, false, source, slot⟩, .rule rule.valueInt rule.maskInt rule.amsel,
          skipped || rule.isCtrlPktOverlay⟩
  | .amsel _ => []

def Switchbox.settings (sb : Switchbox) : List PortSetting :=
  sb.connections.flatMap (portSettings sb.tile)

def Device.settings (device : Device) : List PortSetting :=
  device.switchboxes.flatMap Switchbox.settings

def overlaySettings (overlay : Device) : Store (SwitchPort Port) String :=
  writeAll (overlay.settings.map fun s => (s.port, s.value.print)) Store.reset

/-- The check of one setting of the reloaded device. -/
def verifySetting (overlayName : String) (settings : Store (SwitchPort Port) String)
    (s : PortSetting) : Except String Unit :=
  match s.skipped, settings s.port with
  | true, none => .error
    (s!"a control-packet reload skips this op, but @{overlayName} does not set " ++ s.port.describe)
  | true, some value =>
    if value ≠ s.value.print then .error
      (s!"a control-packet reload skips this op, but @{overlayName} sets " ++ s.port.describe ++
        " differently")
    else .ok ()
  | false, some _ => .error
    ("a control-packet reload rewrites " ++ s.port.describe ++
      s!", which the control packets of @{overlayName} route through")
  | false, none => .ok ()

/-- A control-packet reload streams the configuration of a device over the routes `overlay` set up,
skipping what is marked `is_ctrl_pkt_overlay`. So the overlay must already write every setting the
reload skips, the same way, and the reload may write nothing the overlay writes. -/
def verifyReloadKeepsOverlay (device overlay : Device) : Except String Unit :=
  device.settings.forM (verifySetting overlay.symName (overlaySettings overlay))

/-! ## Configuration -/

inductive Call (π : Type)
  | strmConnCctEnable (tile : TileID) (slave master : π)
  | strmPktSwMstrPortEnable (tile : TileID) (master : π) (dropHeader : Bool) (arbiter : ℤ)
      (mselEn : ℕ)
  | strmPktSwSlavePortEnable (tile : TileID) (slave : π)
  | strmPktSwSlaveSlotEnable (tile : TileID) (slave : π) (slot : ℕ) (pktId mask : ℤ)
      (msel arbiter : ℕ)
deriving DecidableEq, Repr

/-- The settings a call writes: the ports and the slot it names. -/
def Call.sets {π : Type} : Call π → List (SwitchPort π × SettingValue π)
  | .strmConnCctEnable tile slave master =>
    [(⟨tile, true, master, -1⟩, .circuitFrom slave), (⟨tile, false, slave, -1⟩, .circuit)]
  | .strmPktSwMstrPortEnable tile master dropHeader arbiter mselEn =>
    [(⟨tile, true, master, -1⟩, .packetMaster arbiter mselEn !dropHeader)]
  | .strmPktSwSlavePortEnable tile slave => [(⟨tile, false, slave, -1⟩, .packet)]
  | .strmPktSwSlaveSlotEnable tile slave slot pktId mask msel arbiter =>
    [(⟨tile, false, slave, slot⟩, .rule pktId mask ⟨arbiter, msel⟩)]

section Configure

variable (skipCtrlPktOverlay : Bool) (tile : TileID)

def configureConnect : SwitchOp → List (Call Port)
  | .connect source dest overlay =>
    if skipCtrlPktOverlay && overlay then [] else [.strmConnCctEnable tile source dest]
  | _ => []

def configureMasterSet : SwitchOp → List (Call Port)
  | .masterset dest amsels keep overlay =>
    if skipCtrlPktOverlay && overlay then []
    else
      let (arbiter, mask) := foldAmsels amsels
      let dropHeader := !keepsPktHeader tile dest keep
      [.strmPktSwMstrPortEnable tile dest dropHeader arbiter mask]
  | _ => []

/-- The rules of a port, from `slot` on. -/
def configureRules (source : Port) (overlayPort : Bool) : ℕ → List PacketRule → List (Call Port)
  | _, [] => []
  | slot, rule :: rules =>
    if skipCtrlPktOverlay && rule.isCtrlPktOverlay then
      configureRules source overlayPort (slot + 1) rules
    else
      (if overlayPort then [] else [.strmPktSwSlavePortEnable tile source]) ++
        .strmPktSwSlaveSlotEnable tile source slot rule.valueInt rule.maskInt rule.amsel.mselValue
          rule.amsel.arbiterIndex :: configureRules source overlayPort (slot + 1) rules

/-- The overlay's rules take the first slots of a port they share with the design's rules, and the
overlay already enabled the port. -/
def configurePacketRules : SwitchOp → List (Call Port)
  | .packetRules source rules overlay =>
    if skipCtrlPktOverlay && overlay then []
    else
      let overlayPort := skipCtrlPktOverlay && rules.any PacketRule.isCtrlPktOverlay
      configureRules skipCtrlPktOverlay tile source overlayPort 0 rules
  | _ => []

end Configure

/-- The calls for a switchbox: its connects, then its master sets, then its packet rules. -/
def Switchbox.calls (skipCtrlPktOverlay : Bool) (sb : Switchbox) : List (Call Port) :=
  sb.connections.flatMap (configureConnect skipCtrlPktOverlay sb.tile) ++
    sb.connections.flatMap (configureMasterSet skipCtrlPktOverlay sb.tile) ++
    sb.connections.flatMap (configurePacketRules skipCtrlPktOverlay sb.tile)

def Device.calls (skipCtrlPktOverlay : Bool) (device : Device) : List (Call Port) :=
  device.switchboxes.flatMap (Switchbox.calls skipCtrlPktOverlay)

inductive StrmSwPortType
  | CORE
  | DMA
  | CTRL
  | FIFO
  | SOUTH
  | WEST
  | NORTH
  | EAST
  | TRACE
deriving DecidableEq, Repr

/-- `WIRE_BUNDLE_TO_STRM_SW_PORT_TYPE`. -/
def strmSwPortType : WireBundle → Option StrmSwPortType
  | .Core => some .CORE
  | .DMA => some .DMA
  | .TileControl => some .CTRL
  | .FIFO => some .FIFO
  | .South => some .SOUTH
  | .West => some .WEST
  | .North => some .NORTH
  | .East => some .EAST
  | .Trace => some .TRACE
  | _ => none

structure StrmPort where
  type : StrmSwPortType
  portNum : ℕ
deriving DecidableEq, Repr

/-- The driver's port, for a bundle the map has. -/
def strmPort (p : Port) : Option StrmPort :=
  (strmSwPortType p.bundle).map fun type => ⟨type, p.channel⟩

/-- A call on the driver's ports. It is not made where a bundle is not in the map. -/
def Call.lower : Call Port → Option (Call StrmPort)
  | .strmConnCctEnable tile slave master => do
    let slave ← strmPort slave
    let master ← strmPort master
    return .strmConnCctEnable tile slave master
  | .strmPktSwMstrPortEnable tile master dropHeader arbiter mselEn => do
    let master ← strmPort master
    return .strmPktSwMstrPortEnable tile master dropHeader arbiter mselEn
  | .strmPktSwSlavePortEnable tile slave => do
    let slave ← strmPort slave
    return .strmPktSwSlavePortEnable tile slave
  | .strmPktSwSlaveSlotEnable tile slave slot pktId mask msel arbiter => do
    let slave ← strmPort slave
    return .strmPktSwSlaveSlotEnable tile slave slot pktId mask msel arbiter

def configureSwitches (device : Device) (skipCtrlPktOverlay : Bool) :
    Option (List (Call StrmPort)) :=
  (device.calls skipCtrlPktOverlay).mapM Call.lower

/-- The settings of the array after calls. -/
def run {π : Type} [DecidableEq π] (calls : List (Call π))
    (array : Store (SwitchPort π) (SettingValue π)) : Store (SwitchPort π) (SettingValue π) :=
  writeAll (calls.flatMap Call.sets) array

end MlirAie.Overlay
