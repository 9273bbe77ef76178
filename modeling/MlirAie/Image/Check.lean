import MlirAie.Route.Port
import MlirAie.Target.Model

/-!
# Checking a stream's allocation against its image's

Two devices are compared resource by resource, each under a name that does not depend on where it
was put.

* `allocationOf`: the resources of a device by their names;
* **`differences`**: the lines that are reported, one a differing resource;
* `SameResources`: what a stream may rely on in its image.
-/

namespace MlirAie.AgainstImage

open Route

/-! ## Devices -/

def stringifyDMAChannelDir : DMAChannelDir → String
  | .S2MM => "S2MM"
  | .MM2S => "MM2S"

structure Channel where
  tile : TileID
  dir : DMAChannelDir
  index : ℕ
deriving DecidableEq

structure ShimDMAAllocationOp where
  symName : String
  channel : Channel
deriving DecidableEq

structure BufferOp where
  symName : Option String
  tile : TileID
  address : Option ℤ
  memBank : Option ℤ
deriving DecidableEq

structure LockOp where
  symName : Option String
  tile : TileID
  lockID : Option ℤ
deriving DecidableEq

/-- `buffer`, `lock`: the names of the operations that define what is used. -/
inductive Operation
  | dmaBd (buffer : Option String) (offset bdId : Option ℤ)
  | useLock (lock : Option String)
  | other
deriving DecidableEq

structure DMAStartOp where
  dir : DMAChannelDir
  index : ℕ
  dest : ℕ

inductive Terminator
  | dmaStart (start : DMAStartOp)
  | nextBd (dest : ℕ)
  | other

structure Block where
  ops : List Operation
  terminator : Terminator

/-- `aie.dma`: a chain of its own, a region for each descriptor. -/
structure DMAOp where
  dir : DMAChannelDir
  index : ℕ
  bds : List (List Operation)

/-- The DMA program of a tile; blocks are named by their positions. -/
structure DmaBody where
  tile : TileID
  blocks : List Block
  dmas : List DMAOp

structure DMAConfigureTaskOp where
  channel : Channel
  ops : List Operation

structure ConnectOp where
  src : Port
  dst : Port
deriving DecidableEq

/-- A switchbox or a shim mux. -/
structure Box where
  tile : TileID
  connects : List ConnectOp

def nameOf (symName : Option String) : String := symName.getD ""

/-- A device; what has a name has it to itself among its kind. -/
structure DeviceOp where
  shimAllocs : List ShimDMAAllocationOp
  buffers : List BufferOp
  locks : List LockOp
  programs : List DmaBody
  tasks : List DMAConfigureTaskOp
  switchboxes : List Box
  shimMuxes : List Box
  shim_names : (shimAllocs.map (·.symName)).Nodup
  buffer_names : ((buffers.filter (nameOf ·.symName ≠ "")).map (nameOf ·.symName)).Nodup
  lock_names : ((locks.filter (nameOf ·.symName ≠ "")).map (nameOf ·.symName)).Nodup

/-! ## Sets and maps in order -/

/-- The elements of a list as a set ordered by a key holds them. -/
def orderedSet {α κ : Type} [DecidableEq α] [LinearOrder κ] (key : α → κ) (l : List α) : List α :=
  l.dedup.insertionSort (key · ≤ key ·)

abbrev OrderedMap (κ β : Type) := AList fun _ : κ => β

def setAll {ι κ β : Type} [DecidableEq κ] (key : ι → κ) (value : ι → β) (l : List ι) :
    OrderedMap κ β :=
  l.foldl (fun m x => m.insert (key x) (value x)) ∅

/-! ## Allocations -/

def buffersOf (ops : List Operation) : List String :=
  ops.filterMap fun
    | .dmaBd buffer offset _ =>
      if nameOf buffer = "" then none else some (nameOf buffer ++ "@" ++ toString (offset.getD (-1)))
    | _ => none

def locksOf (ops : List Operation) : List String :=
  ops.filterMap fun
    | .useLock lock => if nameOf lock = "" then none else some (nameOf lock)
    | _ => none

/-- The named buffers, each with the offset it is moved at, or failing them the named locks. -/
def identity (ops : List Operation) : String :=
  ", ".intercalate (orderedSet id (if buffersOf ops = [] then locksOf ops else buffersOf ops))

def Operation.isBd : Operation → Bool
  | .dmaBd _ _ _ => true
  | _ => false

/-- The descriptors' ids, `-1` for one that has none. -/
def bdIdsOf (ops : List Operation) : List ℤ :=
  ops.filterMap fun
    | .dmaBd _ _ bdId => some (bdId.getD (-1))
    | _ => none

/-- The operations of the blocks from `at` on, up to one without descriptors or that was seen. -/
def chainFrom (blocks : List Block) : ℕ → List ℕ → ℕ → List Operation
  | 0, _, _ => []
  | fuel + 1, seen, b =>
    if b ∈ seen then []
    else
      match blocks[b]? with
      | none => []
      | some block =>
        if block.ops.any Operation.isBd then
          block.ops ++
            match block.terminator with
            | .nextBd dest => chainFrom blocks fuel (b :: seen) dest
            | _ => []
        else []

structure Chain where
  channel : Channel
  ops : List Operation
deriving DecidableEq

def DmaBody.started (program : DmaBody) : List Chain :=
  program.blocks.filterMap fun block =>
    match block.terminator with
    | .dmaStart start => some
      ⟨⟨program.tile, start.dir, start.index⟩,
        chainFrom program.blocks program.blocks.length [] start.dest⟩
    | _ => none

/-- The chains that `aie.dma` operations are. -/
def DmaBody.direct (program : DmaBody) : List Chain :=
  program.dmas.map fun dma => ⟨⟨program.tile, dma.dir, dma.index⟩, dma.bds.flatten⟩

def DeviceOp.started (device : DeviceOp) : List Chain := device.programs.flatMap DmaBody.started

def DeviceOp.direct (device : DeviceOp) : List Chain := device.programs.flatMap DmaBody.direct

/-- Tiles are ordered by their columns, then by their rows. -/
def tileKey (t : TileID) : ℕ ×ₗ ℕ := toLex (t.col, t.row)

def Channel.key (c : Channel) : (ℕ ×ₗ ℕ) ×ₗ ℤ ×ₗ ℕ :=
  toLex (tileKey c.tile, toLex (c.dir.toInt, c.index))

structure Allocation where
  shimEnds : OrderedMap String Channel
  buffers : OrderedMap String (TileID × Option ℤ × Option ℤ)
  locks : OrderedMap String (TileID × Option ℤ)
  chains : OrderedMap String (Channel × List ℤ)
  tasks : OrderedMap String (List Channel)
  switches : OrderedMap (TileID × String) (List String)

def ConnectOp.str (c : ConnectOp) : String := describePort c.src ++ "->" ++ describePort c.dst

/-- A box joins the connects of its tile and kind. -/
def addSwitch (kind : String) (switches : OrderedMap (TileID × String) (List String)) (box : Box) :
    OrderedMap (TileID × String) (List String) :=
  switches.insert (box.tile, kind)
    (orderedSet id ((switches.lookup (box.tile, kind)).getD [] ++ box.connects.map ConnectOp.str))

def addTask (tasks : OrderedMap String (List Channel)) (task : DMAConfigureTaskOp) :
    OrderedMap String (List Channel) :=
  if identity task.ops = "" then tasks
  else tasks.insert (identity task.ops)
    (orderedSet Channel.key (task.channel :: (tasks.lookup (identity task.ops)).getD []))

def allocationOf (device : DeviceOp) : Allocation where
  shimEnds := setAll (·.symName) (·.channel) device.shimAllocs
  buffers := setAll (nameOf ·.symName) (fun b => (b.tile, b.address, b.memBank))
    (device.buffers.filter (nameOf ·.symName ≠ ""))
  locks := setAll (nameOf ·.symName) (fun l => (l.tile, l.lockID))
    (device.locks.filter (nameOf ·.symName ≠ ""))
  chains := setAll (identity ·.ops) (fun c => (c.channel, bdIdsOf c.ops))
    (device.started.filter (identity ·.ops ≠ ""))
  tasks := device.tasks.foldl addTask ∅
  switches := device.shimMuxes.foldl (addSwitch "shim mux")
    (device.switchboxes.foldl (addSwitch "switchbox") ∅)

/-! ## Differences -/

def strTile (t : TileID) : String := "(" ++ toString t.col ++ ", " ++ toString t.row ++ ")"

def Channel.str (c : Channel) : String :=
  strTile c.tile ++ " " ++ stringifyDMAChannelDir c.dir ++ " " ++ toString c.index

def strChannels (channels : List Channel) : String := " and ".intercalate (channels.map Channel.str)

def strValue (value : Option ℤ) : String := value.elim "none" toString

/-- A long list is shortened to its first two and a count. -/
def shortList (names : List String) : String :=
  if names.length ≤ 3 then ", ".intercalate names
  else names.getD 0 "" ++ ", " ++ names.getD 1 "" ++ " and " ++ toString (names.length - 2) ++ " more"

def shortName (name : String) : String := shortList (name.splitOn ", ")

/-- The text up to the last `sep`, all of it without one. -/
def beforeLast (sep text : String) : String :=
  match text.toList.inits.reverse.find? fun pre => (pre ++ sep.toList).isPrefixOf text.toList with
  | some pre => String.ofList pre
  | none => text

/-- The lines for the names in either map, in order. -/
def both {β : Type} (a b : OrderedMap String β)
    (fn : String → Option β → Option β → List String) : List String :=
  (orderedSet id (a.keys ++ b.keys)).flatMap fun key => fn key (a.lookup key) (b.lookup key)

def shimEndLines (name : String) (i s : Option Channel) : List String :=
  if i.isSome && s.isSome && i = s then []
  else
    [beforeLast "_shim_alloc" name ++ "'s shim end: image " ++ i.elim "none" Channel.str ++
      ", this stream " ++ s.elim "none" Channel.str ++ "; pin it to keep it stable across shapes"]

/-- The tiles of the buffers that moved, each with the names of these. -/
def movedLines (image stream : OrderedMap String (TileID × Option ℤ × Option ℤ)) : List String :=
  let moved : List (String × TileID × TileID) :=
    (orderedSet id image.keys).filterMap fun name =>
      match image.lookup name, stream.lookup name with
      | some i, some s => if s.1 ≠ i.1 then some (name, i.1, s.1) else none
      | _, _ => none
  (orderedSet (fun t : TileID × TileID => toLex (tileKey t.1, tileKey t.2))
      (moved.map (·.2))).map fun tiles =>
    "the tile holding " ++
      shortList ((moved.filter fun m => m.2 = tiles).map (·.1)) ++ ": image " ++
      strTile tiles.1 ++ ", this stream " ++ strTile tiles.2 ++
      "; pin it to keep it stable across shapes"

def chainLines (name : String) (i s : Option (Channel × List ℤ)) : List String :=
  match i, s with
  | some i, some s =>
    if i.1 = s.1 then
      if i.2 ≠ s.2 then
        ["the BD ids of the chain moving " ++ shortName name ++ " at " ++ i.1.str ++ ": image " ++
          ", ".intercalate (i.2.map toString) ++ ", this stream " ++
          ", ".intercalate (s.2.map toString)]
      else []
    else [moved i.1.str s.1.str]
  | i, s => [moved (i.elim "none" (·.1.str)) (s.elim "none" (·.1.str))]
where
  moved (i s : String) : String :=
    "the DMA channel moving " ++ shortName name ++ ": image " ++ i ++ ", this stream " ++ s ++
      "; pin its endpoint to keep it stable across shapes"

/-- A task only one sequence issues is no allocation of its own. -/
def taskLines (name : String) (i s : Option (List Channel)) : List String :=
  match i, s with
  | some i, some s =>
    if i = s then []
    else ["the runtime tasks moving " ++ shortName name ++ ": image " ++ strChannels i ++
      ", this stream " ++ strChannels s ++ "; pin their endpoint to keep it stable across shapes"]
  | _, _ => []

def bufferLines (name : String) (i s : Option (TileID × Option ℤ × Option ℤ)) : List String :=
  match i, s with
  | some i, some s =>
    if i.1 ≠ s.1 then []
    else if i.2 = s.2 then []
    else ["buffer " ++ name ++ " on " ++ strTile i.1 ++ ": image address " ++ strValue i.2.1 ++
      " (bank " ++ strValue i.2.2 ++ "), this stream " ++ strValue s.2.1 ++
      " (bank " ++ strValue s.2.2 ++ ")"]
  | some i, none => ["buffer " ++ name ++ ": only the image has it, at " ++ strTile i.1]
  | none, some s => ["buffer " ++ name ++ ": only this stream has it, at " ++ strTile s.1]
  | none, none => []

def lockLines (name : String) (i s : Option (TileID × Option ℤ)) : List String :=
  match i, s with
  | some i, some s =>
    if i = s then []
    -- the buffers of the tile are taken to have moved along
    else if i.1 ≠ s.1 then []
    else ["lock " ++ name ++ " on " ++ strTile i.1 ++ ": image id " ++ strValue i.2 ++
      ", this stream id " ++ strValue s.2]
  | some _, none => ["lock " ++ name ++ ": only the image has it"]
  | none, some _ => ["lock " ++ name ++ ": only this stream has it"]
  | none, none => []

def switchLines (image stream : OrderedMap (TileID × String) (List String)) : List String :=
  let lines := (orderedSet (fun key : TileID × String => toLex (tileKey key.1, key.2))
      (image.keys ++ stream.keys)).flatMap fun key =>
    let i := (image.lookup key).getD []
    let s := (stream.lookup key).getD []
    let onlyImage := i.filter (· ∉ s)
    let onlyStream := s.filter (· ∉ i)
    if onlyImage.isEmpty && onlyStream.isEmpty then []
    else [key.2 ++ " " ++ strTile key.1 ++ ": image connects " ++
      (if onlyImage.isEmpty then "none" else ", ".intercalate onlyImage) ++ ", this stream " ++
      (if onlyStream.isEmpty then "none" else ", ".intercalate onlyStream)]
  if lines.isEmpty then [] else lines ++ ["the routes follow the placement and channels above"]

/-- **What differs** between the image's allocation and the stream's, each line a resource. -/
def differences (image stream : Allocation) : List String :=
  both image.shimEnds stream.shimEnds shimEndLines ++
    movedLines image.buffers stream.buffers ++
    both image.chains stream.chains chainLines ++
    both image.tasks stream.tasks taskLines ++
    both image.buffers stream.buffers bufferLines ++
    both image.locks stream.locks lockLines ++
    switchLines image.switches stream.switches

/-- `runOnOperation`: the errors for the devices of a stream's module. -/
def runOnOperation (clImage : String) (image stream : List (String × DeviceOp)) :
    List (List String) :=
  stream.filterMap fun (name, device) =>
    match image.reverse.lookup name with
    | none => some ["has no device of its name in the image's module " ++ clImage]
    | some target =>
      let lines := differences (allocationOf target) (allocationOf device)
      if lines.isEmpty then none
      else some (("this instruction stream would program resources its image (" ++ clImage ++
        ") does not have; " ++ toString lines.length ++ " differ:") :: lines)

/-! ## The same resources -/

/-- The named buffers that a chain touches, with their offsets, or failing them the named locks. -/
structure Touched where
  buffers : Finset (String × ℤ)
  locks : Finset String
deriving DecidableEq

/-- The named buffers that operations move, with their offsets. -/
def bufferUses (ops : List Operation) : Finset (String × ℤ) :=
  (ops.filterMap fun
    | .dmaBd buffer offset _ =>
      if nameOf buffer = "" then none else some (nameOf buffer, offset.getD (-1))
    | _ => none).toFinset

/-- What a chain is about, wherever it runs. -/
def Chain.touched (c : Chain) : Touched :=
  ⟨bufferUses c.ops, if bufferUses c.ops = ∅ then (locksOf c.ops).toFinset else ∅⟩

def Chain.Touches (c : Chain) : Prop := bufferUses c.ops ≠ ∅ ∨ (locksOf c.ops).toFinset ≠ ∅

def DeviceOp.chains (device : DeviceOp) : List Chain := device.started ++ device.direct

/-- The chains touch the same, on the same channel, by the same descriptors. -/
def Chain.Same (c c' : Chain) : Prop :=
  c.touched = c'.touched ∧ c.channel = c'.channel ∧ bdIdsOf c.ops = bdIdsOf c'.ops

def connectsOf (boxes : List Box) (tile : TileID) : List ConnectOp :=
  (boxes.filter (·.tile = tile)).flatMap (·.connects)

/-- **The same resources**: whatever has a name, in either device, is in both where it was. -/
structure SameResources (image stream : DeviceOp) : Prop where
  shimEnds : ∀ a, a ∈ image.shimAllocs ↔ a ∈ stream.shimAllocs
  buffers : ∀ b : BufferOp, nameOf b.symName ≠ "" → (b ∈ image.buffers ↔ b ∈ stream.buffers)
  locks : ∀ l : LockOp, nameOf l.symName ≠ "" → (l ∈ image.locks ↔ l ∈ stream.locks)
  imageChains : ∀ c ∈ image.chains, c.Touches → ∃ c' ∈ stream.chains, c.Same c'
  streamChains : ∀ c ∈ stream.chains, c.Touches → ∃ c' ∈ image.chains, c.Same c'
  switchboxes : ∀ tile c, c ∈ connectsOf image.switchboxes tile ↔
    c ∈ connectsOf stream.switchboxes tile
  shimMuxes : ∀ tile c, c ∈ connectsOf image.shimMuxes tile ↔ c ∈ connectsOf stream.shimMuxes tile

/-! ## What is not compared -/

/-- A chain that is not compared: an `aie.dma` operation, or one whose name another chain has that
differs from it, or that touches something else in the other device. -/
def Hidden (device other : DeviceOp) (c : Chain) : Prop :=
  c ∈ device.direct ∨ (∃ c' ∈ device.started, identity c'.ops = identity c.ops ∧ ¬ c.Same c') ∨
    ∃ c' ∈ other.started, identity c'.ops = identity c.ops ∧ c.touched ≠ c'.touched

/-- No lock is on another tile, and whatever chain is hidden is the same in the other device. -/
structure NothingHidden (image stream : DeviceOp) : Prop where
  locks : ∀ l ∈ image.locks, ∀ l' ∈ stream.locks, nameOf l.symName ≠ "" →
    nameOf l.symName = nameOf l'.symName → l.tile = l'.tile
  imageChains : ∀ c ∈ image.chains, c.Touches → Hidden image stream c →
    ∃ c' ∈ stream.chains, c.Same c'
  streamChains : ∀ c ∈ stream.chains, c.Touches → Hidden stream image c →
    ∃ c' ∈ image.chains, c.Same c'

end MlirAie.AgainstImage
