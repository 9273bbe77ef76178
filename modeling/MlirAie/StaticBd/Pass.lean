import MlirAie.Target.Model

/-!
# Static buffer descriptor ids

`AIEAssignBufferDescriptorIDs` gives every descriptor of the DMA programs of a device an id, and
the id of the descriptor that follows it. The ids of a tile are shared by all its programs; a
program pins some, and the others take the lowest free id that their channel reaches.

* `BdIdGenerator.nextBdId`: the lowest free id; `blockChannelMap`: the channel of each block;
* `assignMemOps`: the ids; `Program.setNext`: the ids that follow;
* **`assignBufferDescriptorIDs`**.
-/

namespace MlirAie.StaticBd

/-! ## Programs -/

structure DMABDOp where
  bdId : Option ℕ := none
  nextBdId : Option ℕ := none
deriving DecidableEq, Repr

/-- `aie.dma`: one descriptor for each of its regions. -/
structure DMAOp where
  channelIndex : ℤ
  loop : Bool := false
  bds : List DMABDOp
deriving DecidableEq, Repr

/-- How a block ends; blocks are known by their position. -/
inductive Terminator
  | DMAStart (channelIndex : ℤ) (dest chain : ℕ)
  | NextBD (dest : ℕ)
  | End
deriving DecidableEq, Repr

def Terminator.successors : Terminator → List ℕ
  | .DMAStart _ dest chain => [dest, chain]
  | .NextBD dest => [dest]
  | .End => []

structure Block where
  bd : Option DMABDOp := none
  others : Bool := false
  terminator : Terminator
deriving DecidableEq, Repr

/-- The block holds only an `aie.end`. -/
def Block.onlyEnd (block : Block) : Bool :=
  block.bd.isNone && !block.others && block.terminator == .End

inductive Program
  | dmaForm (ops : List DMAOp)
  | blockForm (blocks : List Block)
deriving DecidableEq, Repr

def Program.bds : Program → List DMABDOp
  | .dmaForm ops => ops.flatMap DMAOp.bds
  | .blockForm blocks => blocks.filterMap Block.bd

structure MemOp where
  tile : ℤ × ℤ
  program : Program
deriving DecidableEq, Repr

/-- A tile operation, with the ids of its `aiex.reserved_bd_ids`. -/
structure TileOp where
  tile : ℤ × ℤ
  reserved : List ℕ := []
deriving DecidableEq, Repr

/-- The programs in the order of the pass: cores' memories, memory tiles, shims. -/
structure Device where
  tm : AIETargetModel
  tiles : List TileOp
  memOps : List MemOp

def Device.reserved (d : Device) (tile : ℤ × ℤ) : List ℕ :=
  (d.tiles.filter fun t => t.tile == tile).flatMap TileOp.reserved

/-! ## Failures -/

inductive Failure
  | alreadyUsed (bdIds : List ℕ)
  | notAccessible (bdId : ℕ) (channelIndex : ℤ)
  | exhausted (available : ℕ) (channelIndex : ℤ)
  | notFollowed
  | assertion (text : String)
deriving DecidableEq, Repr

def Failure.errors : Failure → List String
  | .alreadyUsed bdIds => bdIds.map fun bdId =>
      s!"assigned bd_id {bdId} is already used by another BD on this tile"
  | .notAccessible bdId channelIndex =>
      [s!"assigned bd_id {bdId} is not accessible from channel {channelIndex} on this tile"]
  | .exhausted available channelIndex =>
      [s!"Allocator exhausted available BD IDs (maximum {available} available for channel " ++
        s!"{channelIndex})."]
  | .notFollowed =>
      ["must be followed by a block with a dma_bd or by a block with only aie.end"]
  | .assertion text => [text]

/-! ## The generator -/

structure BdIdGenerator where
  tm : AIETargetModel
  tile : ℤ × ℤ
  alreadyAssigned : List ℕ

namespace BdIdGenerator

variable (gen : BdIdGenerator)

def numBDs : ℕ := gen.tm.getNumBDs (gen.tm.getTileType gen.tile.1 gen.tile.2)

def accessible (bdId : ℕ) (channelIndex : ℤ) : Bool :=
  gen.tm.isBdChannelAccessible gen.tile.1 gen.tile.2 bdId channelIndex

def bdIdAlreadyAssigned (bdId : ℕ) : Bool := gen.alreadyAssigned.contains bdId

def assignBdId (bdId : ℕ) : BdIdGenerator :=
  { gen with alreadyAssigned := bdId :: gen.alreadyAssigned }

def nextBdId (channelIndex : ℤ) : Option (ℕ × BdIdGenerator) :=
  ((List.range gen.numBDs).find? fun bdId =>
    !gen.bdIdAlreadyAssigned bdId && gen.accessible bdId channelIndex).map fun bdId =>
      (bdId, gen.assignBdId bdId)

def getNumBDsForChannel (channelIndex : ℤ) : ℕ :=
  (List.range gen.numBDs).countP fun bdId => gen.accessible bdId channelIndex

/-- A tile whose ids are taken so far by its reservations alone. -/
def ofReserved (tm : AIETargetModel) (tile : ℤ × ℤ) (reserved : List ℕ) : BdIdGenerator :=
  reserved.foldl (fun gen bdId => if gen.bdIdAlreadyAssigned bdId then gen else gen.assignBdId bdId)
    ⟨tm, tile, []⟩

/-- The walk over the descriptors of a program: every pinned id is taken. The ids that are taken
already are listed. -/
def collectPinned : List DMABDOp → BdIdGenerator → List ℕ × BdIdGenerator
  | [], gen => ([], gen)
  | bd :: bds, gen =>
    match bd.bdId with
    | none => collectPinned bds gen
    | some bdId =>
      if gen.bdIdAlreadyAssigned bdId then
        (bdId :: (collectPinned bds gen).1, (collectPinned bds gen).2)
      else collectPinned bds (gen.assignBdId bdId)

/-- One descriptor: its channel must reach a pinned id. -/
def assignBd (channelIndex : ℤ) (bd : DMABDOp) : Except Failure (DMABDOp × BdIdGenerator) :=
  match bd.bdId with
  | some bdId =>
    if gen.accessible bdId channelIndex then .ok (bd, gen)
    else .error (.notAccessible bdId channelIndex)
  | none =>
    match gen.nextBdId channelIndex with
    | none => .error (.exhausted (gen.getNumBDsForChannel channelIndex) channelIndex)
    | some next => .ok ({ bd with bdId := some next.1 }, next.2)

end BdIdGenerator

open BdIdGenerator

/-! ## The two forms -/

/-- The descriptors of one `aie.dma`. -/
def assignBds (channelIndex : ℤ) :
    List DMABDOp → BdIdGenerator → Except Failure (List DMABDOp × BdIdGenerator)
  | [], gen => .ok ([], gen)
  | bd :: bds, gen => do
    let first ← gen.assignBd channelIndex bd
    let rest ← assignBds channelIndex bds first.2
    .ok (first.1 :: rest.1, rest.2)

def assignDMAs : List DMAOp → BdIdGenerator → Except Failure (List DMAOp × BdIdGenerator)
  | [], gen => .ok ([], gen)
  | op :: ops, gen => do
    let first ← assignBds op.channelIndex op.bds gen
    let rest ← assignDMAs ops first.2
    .ok ({ op with bds := first.1 } :: rest.1, rest.2)

def nextBlock (blocks : List Block) (i : ℕ) : Option ℕ :=
  (blocks[i]?).bind fun block => block.terminator.successors.head?

/-- The walk along a chain, which gives its channel to every block up to the first that has one. A
walk visits no block twice, so `fuel` exceeds the number of the blocks. -/
def markChain (blocks : List Block) (channelIndex : ℤ) :
    ℕ → ℕ → (ℕ → Option ℤ) → ℕ → Option ℤ
  | 0, _, map => map
  | fuel + 1, dest, map =>
    let map := Function.update map dest (some channelIndex)
    match nextBlock blocks dest with
    | none => map
    | some next => if (map next).isSome then map else markChain blocks channelIndex fuel next map

def markStart (blocks : List Block) (map : ℕ → Option ℤ) (i : ℕ) : ℕ → Option ℤ :=
  match (blocks[i]?).map Block.terminator with
  | some (.DMAStart channelIndex dest _) =>
    markChain blocks channelIndex (blocks.length + 1) dest
      (Function.update map i (some channelIndex))
  | _ => map

def blockChannelMap (blocks : List Block) : ℕ → Option ℤ :=
  (List.range blocks.length).foldl (markStart blocks) fun _ => none

/-- The blocks from position `i` on. -/
def assignBlocks (map : ℕ → Option ℤ) :
    ℕ → List Block → BdIdGenerator → Except Failure (List Block × BdIdGenerator)
  | _, [], gen => .ok ([], gen)
  | i, block :: blocks, gen =>
    match block.bd with
    | none => do
      let rest ← assignBlocks map (i + 1) blocks gen
      .ok (block :: rest.1, rest.2)
    | some bd =>
      match map i with
      | none => .error (.assertion "blockChannelMap.count(&block)")
      | some channelIndex => do
        let first ← gen.assignBd channelIndex bd
        let rest ← assignBlocks map (i + 1) blocks first.2
        .ok ({ block with bd := some first.1 } :: rest.1, rest.2)

/-- One program: its pinned ids first, then the others. -/
def assignProgram (p : Program) (gen : BdIdGenerator) :
    Except Failure (Program × BdIdGenerator) :=
  let pinned := collectPinned p.bds gen
  if pinned.1 ≠ [] then .error (.alreadyUsed pinned.1)
  else
    match p with
    | .dmaForm ops => do
      let r ← assignDMAs ops pinned.2
      .ok (.dmaForm r.1, r.2)
    | .blockForm blocks => do
      let r ← assignBlocks (blockChannelMap blocks) 0 blocks pinned.2
      .ok (.blockForm r.1, r.2)

def assignMemOps (d : Device) :
    List MemOp → (ℤ × ℤ → Option BdIdGenerator) → Except Failure (List MemOp)
  | [], _ => .ok []
  | memOp :: memOps, gens => do
    let gen := (gens memOp.tile).getD (.ofReserved d.tm memOp.tile (d.reserved memOp.tile))
    let first ← assignProgram memOp.program gen
    let rest ← assignMemOps d memOps (Function.update gens memOp.tile (some first.2))
    .ok ({ memOp with program := first.1 } :: rest)

/-! ## What follows a descriptor -/

/-- The descriptors of one `aie.dma`; `first` follows the last. -/
def linkBds (first : Option ℕ) : List DMABDOp → List DMABDOp
  | [] => []
  | bd :: bds =>
    { bd with nextBdId := (bds.head?.map DMABDOp.bdId).getD first } :: linkBds first bds

def DMAOp.setNext (op : DMAOp) : DMAOp :=
  { op with
    bds := linkBds (if op.loop then op.bds.head?.bind DMABDOp.bdId else none) op.bds }

def Block.setNext (blocks : List Block) (block : Block) : Except Failure Block :=
  match block.bd with
  | none => .ok block
  | some bd =>
    match block.terminator.successors with
    | [] => .ok block
    | [next] =>
      match blocks[next]? with
      | none => .error (.assertion "no such block")
      | some nextBlock =>
        match nextBlock.bd with
        | some nextBd => .ok { block with bd := some { bd with nextBdId := nextBd.bdId } }
        | none =>
          if nextBlock.onlyEnd then .ok { block with bd := some { bd with nextBdId := none } }
          else .error .notFollowed
    | _ => .error (.assertion "should have only one successor block")

def Program.setNext : Program → Except Failure Program
  | .dmaForm ops => .ok (.dmaForm (ops.map DMAOp.setNext))
  | .blockForm blocks => do
    let r ← blocks.mapM (Block.setNext blocks)
    .ok (.blockForm r)

def MemOp.setNext (memOp : MemOp) : Except Failure MemOp := do
  let program ← memOp.program.setNext
  .ok { memOp with program := program }

/-- **The pass.** -/
def assignBufferDescriptorIDs (d : Device) : Except Failure Device := do
  let memOps ← assignMemOps d d.memOps fun _ => none
  let memOps ← memOps.mapM MemOp.setNext
  .ok { d with memOps := memOps }

end MlirAie.StaticBd
