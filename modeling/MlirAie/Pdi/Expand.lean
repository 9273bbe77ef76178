import Mathlib

/-!
# Expanding `load_pdi`

The pass replaces each `load_pdi` of a device by the load of a PDI that resets the array, an empty
device or the control packet overlay, and by what then configures the device. The firmware ignores
the load of a PDI that is loaded already, so there are two of each, picked by the index of the
`load_pdi` in the module.

* `transformLoadPdi`: what becomes of one `load_pdi`;
* `NpuWriteConfig.verify`: what the verifier accepts afterwards;
* `expandLoadPdi`: the pass.
-/

namespace MlirAie.Pdi

/-! ## The module -/

inductive ExpandMode where
  | none
  | write32
  | ctrlpkt
  deriving DecidableEq

/-- `aiex.npu.load_pdi`. -/
structure LoadPdi where
  deviceRef : Option String
  id : ℕ := 0
  size : ℕ := 0
  address : ℕ := 0
  expandMode : Option ExpandMode := none
  deriving DecidableEq

inductive Op where
  | loadPdi (load : LoadPdi)
  | writeConfig (device : String)
  | controlPackets (device overlay : String)
  | other
  deriving DecidableEq

/-- An `aie.device`: its name, its type, and whether an empty PDI comes of it. -/
structure DeviceOp where
  symName : String
  device : ℕ
  isEmpty : Bool
  deriving DecidableEq

/-- The devices of a module, and the runtime sequences of all of them in the order of the walk. -/
structure Module where
  devices : List DeviceOp
  sequences : List (List Op)

def lookupDevice (devices : List DeviceOp) (name : String) : Option DeviceOp :=
  devices.find? fun device => device.symName = name

/-- An operation after the pass, and whether the pass inserted it. -/
structure Emitted where
  op : Op
  inserted : Bool
  deriving DecidableEq

/-- What the pass relies on to stream or to write a device: that a reload keeps the overlay, that
the packets of the reload are generated and reach their tiles, and that the writes of a device are
generated. -/
structure Reloads where
  verifyReloadKeepsOverlay : (device overlay : String) → Except String Unit
  insertConfigOps : (device overlay : String) → Except String Unit
  inlineWriteConfig : (device : String) → Except String Unit

structure Options where
  clCtrlPkt : Bool
  clInlineConfig : Bool

def Options.defaultMode (options : Options) : ExpandMode :=
  if options.clCtrlPkt then .ctrlpkt else .write32

/-! ## The PDIs loaded first -/

def kCtrlPktOverlayName : String := "ctrl_pkt_overlay"

def kCtrlPktOverlayCopyName : String := "ctrl_pkt_overlay_copy"

def emptyName (parity : ℕ) : String := "empty_" ++ toString parity

def overlayName (index : ℕ) : String :=
  if index % 2 = 0 then kCtrlPktOverlayName else kCtrlPktOverlayCopyName

def overlayMissing : String :=
  "ctrl-pkt mode requires a `@ctrl_pkt_overlay` device in the module"

def getOrCreateCtrlPktOverlayCopy (devices : List DeviceOp) : Except String (List DeviceOp) :=
  match lookupDevice devices kCtrlPktOverlayCopyName with
  | some _ => .ok devices
  | none =>
    match lookupDevice devices kCtrlPktOverlayName with
    | none => .error overlayMissing
    | some orig =>
      .ok (devices.flatMap fun device =>
        if device = orig then [device, { orig with symName := kCtrlPktOverlayCopyName }]
        else [device])

/-- The module has the overlay of that index afterwards. -/
def getOverlay (index : ℕ) (devices : List DeviceOp) : Except String (List DeviceOp) :=
  if index % 2 ≠ 0 then getOrCreateCtrlPktOverlayCopy devices
  else if (lookupDevice devices kCtrlPktOverlayName).isSome then .ok devices
  else .error overlayMissing

def getOrCreateEmptyDevice (devices : List DeviceOp) (deviceType parity : ℕ) : List DeviceOp :=
  if (lookupDevice devices (emptyName parity)).isSome then devices
  else ⟨emptyName parity, deviceType, true⟩ :: devices

/-! ## One operation -/

section Transform

variable (options : Options) (reloads : Reloads)

def LoadPdi.mode (load : LoadPdi) : ExpandMode := load.expandMode.getD options.defaultMode

/-- `load` is left, or becomes the load of a PDI that resets and the configuration after it. -/
def transformLoadPdi (index : ℕ) (load : LoadPdi) (devices : List DeviceOp) :
    Except String (List Emitted × List DeviceOp) :=
  match load.deviceRef with
  | none => .ok ([⟨.loadPdi load, false⟩], devices)
  | some ref =>
    match load.mode options with
    | .none => .ok ([⟨.loadPdi load, false⟩], devices)
    | .ctrlpkt =>
      match lookupDevice devices ref with
      | none => .error s!"Referenced symbol '{ref}' is not a device"
      | some _ => do
        let devices ← getOverlay index devices
        reloads.verifyReloadKeepsOverlay ref (overlayName index)
        let preload : LoadPdi :=
          { deviceRef := some (overlayName index), expandMode := some .none }
        return ([⟨.loadPdi preload, true⟩, ⟨.controlPackets ref (overlayName index), true⟩],
          devices)
    | .write32 =>
      match lookupDevice devices ref with
      | none => .error s!"Referenced symbol '{ref}' is not a device"
      | some referencedDevice =>
        let reset : LoadPdi :=
          { load with deviceRef := some (emptyName (index % 2)), expandMode := some .none }
        .ok ([⟨.loadPdi reset, true⟩, ⟨.writeConfig ref, true⟩],
          getOrCreateEmptyDevice devices referencedDevice.device (index % 2))

/-- The index counts every `load_pdi`, also those that are left. -/
def transformSequence : ℕ → List Op → List DeviceOp →
    Except String (List Emitted × List DeviceOp)
  | _, [], devices => .ok ([], devices)
  | index, .loadPdi load :: ops, devices => do
    let (out, devices) ← transformLoadPdi options reloads index load devices
    let (rest, devices) ← transformSequence (index + 1) ops devices
    return (out ++ rest, devices)
  | index, op :: ops, devices => do
    let (rest, devices) ← transformSequence index ops devices
    return (⟨op, false⟩ :: rest, devices)

end Transform

/-- The number of `load_pdi` of a sequence. -/
def loadCount : List Op → ℕ
  | [] => 0
  | .loadPdi _ :: ops => loadCount ops + 1
  | _ :: ops => loadCount ops

attribute [local simp] loadCount

def transformSequences (options : Options) (reloads : Reloads) : ℕ → List (List Op) →
    List DeviceOp → Except String (List (List Emitted) × List DeviceOp)
  | _, [], devices => .ok ([], devices)
  | index, ops :: sequences, devices => do
    let (out, devices) ← transformSequence options reloads index ops devices
    let (rest, devices) ←
      transformSequences options reloads (index + loadCount ops) sequences devices
    return (out :: rest, devices)

/-! ## The end of a sequence -/

/-- The parity of the first and of the last reset of a sequence, and the device type to reset. -/
structure ResetParity where
  firstParity : ℕ
  lastParity : ℕ
  device : ℕ

/-- The device a `load_pdi` resets the array for, as the module stands before the pass. -/
def LoadPdi.resetDevice? (options : Options) (devices : List DeviceOp) (load : LoadPdi) :
    Option DeviceOp :=
  if load.mode options = .write32 then load.deviceRef.bind (lookupDevice devices) else none

def noteReset (info : Option ResetParity) (index device : ℕ) : ResetParity :=
  ⟨(info.map ResetParity.firstParity).getD (index % 2), index % 2, device⟩

def captureResets (options : Options) (devices : List DeviceOp) :
    Option ResetParity → ℕ → List Op → Option ResetParity
  | info, _, [] => info
  | info, index, .loadPdi load :: ops =>
    match load.resetDevice? options devices with
    | some device =>
      captureResets options devices (some (noteReset info index device.device)) (index + 1) ops
    | none => captureResets options devices info (index + 1) ops
  | info, index, _ :: ops => captureResets options devices info index ops

def captureSequences (options : Options) (devices : List DeviceOp) :
    ℕ → List (List Op) → List (Option ResetParity)
  | _, [] => []
  | index, ops :: sequences =>
    captureResets options devices none index ops ::
      captureSequences options devices (index + loadCount ops) sequences

/-- One more reset, of the parity opposite the last one, where the last one has the parity of the
first. -/
def appendReset (info : Option ResetParity) (ops : List Emitted) (devices : List DeviceOp) :
    List Emitted × List DeviceOp :=
  match info with
  | none => (ops, devices)
  | some info =>
    if info.firstParity ≠ info.lastParity then (ops, devices)
    else
      let reset : LoadPdi :=
        { deviceRef := some (emptyName (1 - info.lastParity)), expandMode := some .none }
      (ops ++ [⟨.loadPdi reset, true⟩],
        getOrCreateEmptyDevice devices info.device (1 - info.lastParity))

def appendResets : List (Option ResetParity) → List (List Emitted) → List DeviceOp →
    List (List Emitted) × List DeviceOp
  | info :: infos, ops :: sequences, devices =>
    let (out, devices) := appendReset info ops devices
    let (rest, devices) := appendResets infos sequences devices
    (out :: rest, devices)
  | _, sequences, devices => (sequences, devices)

/-! ## The verifier -/

/-- The `load_pdi` before an operation, and what comes before it; `before` is read backwards. -/
def precedingLoadPdi : List Op → Option (LoadPdi × List Op)
  | [] => none
  | .loadPdi load :: before => some (load, before)
  | _ :: before => precedingLoadPdi before

def LoadPdi.samePdi (before reset : LoadPdi) : Bool :=
  before.deviceRef = reset.deviceRef ∧ before.id = reset.id ∧ before.size = reset.size ∧
    before.address = reset.address

/-- `sequence` and what stands `before` the operation in it are read backwards. -/
def NpuWriteConfig.verify (devices : List DeviceOp) (sequence before : List Op) (ref : String) :
    Except String Unit :=
  match precedingLoadPdi before with
  | none => .error "must follow the load_pdi that resets the array"
  | some (reset, earlier) =>
    -- Ahead of the sequence's first load is its last, as the host runs the sequence again.
    match (precedingLoadPdi earlier).or (precedingLoadPdi sequence) with
    | none => .error "must follow the load_pdi that resets the array"
    | some (prior, _) =>
      if prior.samePdi reset then
        .error ("follows a load_pdi the firmware skips, as it loads the PDI loaded just before " ++
          "it, so the array is not reset")
      else if (lookupDevice devices ref).isNone then .error s!"@{ref} is not a device"
      else if ((reset.deviceRef.bind (lookupDevice devices)).map DeviceOp.isEmpty).getD false then
        .ok ()
      else .error "must follow a load_pdi of an empty device, which resets the array"

def verifySequence (devices : List DeviceOp) (sequence : List Op) :
    List Op → List Op → Except String Unit
  | _, [] => .ok ()
  | before, .writeConfig ref :: ops => do
    NpuWriteConfig.verify devices sequence before ref
    verifySequence devices sequence (.writeConfig ref :: before) ops
  | before, op :: ops => verifySequence devices sequence (op :: before) ops

/-! ## The pass -/

section Pass

variable (options : Options) (reloads : Reloads)

def insertControlPackets : List Emitted → Except String Unit
  | [] => .ok ()
  | ⟨.controlPackets ref overlay, true⟩ :: ops => do
    reloads.insertConfigOps ref overlay
    insertControlPackets ops
  | _ :: ops => insertControlPackets ops

/-- The writes of a device in the place of its `write_config`. -/
def inlineWriteConfigs : List Emitted → Except String (List Emitted)
  | [] => .ok []
  | ⟨.writeConfig ref, inserted⟩ :: ops => do
    reloads.inlineWriteConfig ref
    return ⟨.other, inserted⟩ :: (← inlineWriteConfigs ops)
  | op :: ops => do return op :: (← inlineWriteConfigs ops)

def inlineSequences (sequences : List (List Emitted)) : Except String (List (List Emitted)) :=
  if options.clInlineConfig then sequences.mapM (inlineWriteConfigs reloads) else .ok sequences

def expandLoadPdi (m : Module) : Except String (List (List Emitted)) := do
  let infos := captureSequences options m.devices 0 m.sequences
  let (transformed, devices) ← transformSequences options reloads 0 m.sequences m.devices
  transformed.forM (insertControlPackets reloads)
  let appended := appendResets infos transformed devices
  let sequences ← inlineSequences options reloads appended.1
  sequences.forM fun ops =>
    verifySequence appended.2 (ops.map Emitted.op).reverse [] (ops.map Emitted.op)
  return sequences

end Pass

end MlirAie.Pdi
