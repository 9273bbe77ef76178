import MlirAie.Txn.Parse
import MlirAie.Lib.Packing

/-!
# Control packets

A configuration of register writes, block writes and mask writes becomes a list of control packets
of at most four words; packets on one address in a row are OR-ed into the first of them. Two passes
over a sequence of control packets have to agree on one layout: the first replaces the packets by
DMAs of a stream that the second writes.

* `NpuControlPacket`: the packet op;
* `ctrlPacketToDma`: packets in batches, one DMA and one sync for each;
* `translateControlPackets`: the words of the stream.
-/

namespace MlirAie.CtrlPkt

open MlirAie.Txn

/-! ## Lowering a transaction -/

/-- A control packet op; opcode `0` writes its data to consecutive words from `address`. -/
structure NpuControlPacket where
  address : Word
  opcode : ℕ := 0
  streamId : ℕ := 0
  data : Option (List Word)
deriving DecidableEq, Repr

def address (op : TransactionBinaryOperation) : Word := op.cmd.regOff.truncate 32

def beats (currAddr : Word) (data : List Word) : List NpuControlPacket :=
  match data with
  | [] => []
  | w :: ws =>
    let splitData := (w :: ws).take 4
    { address := currAddr, data := some splitData } ::
      beats (currAddr + BitVec.ofNat 32 (splitData.length * 4)) ((w :: ws).drop 4)
termination_by data.length

attribute [local simp] beats

def emitControlPacketOp (op : TransactionBinaryOperation) :
    Except String (List NpuControlPacket) :=
  match op.cmd.opcode with
  | .WRITE => .ok [{ address := address op, data := some [op.cmd.value] }]
  | .BLOCKWRITE => .ok (beats (address op) (payloadWords op.cmd.payload))
  | .MASKWRITE => .ok [{ address := address op, data := some [op.cmd.value] }]
  | opcode => .error ("Unhandled txn opcode: " ++ toString opcode.code.toNat)

def emitControlPacketOps :
    List TransactionBinaryOperation → Except String (List NpuControlPacket)
  | [] => .ok []
  | op :: ops => do
    let packets ← emitControlPacketOp op
    let rest ← emitControlPacketOps ops
    return packets ++ rest

/-- Word by word OR; past the shorter list, the longer one's words. -/
def orData : List Word → List Word → List Word
  | [], current => current
  | buffered, [] => buffered
  | b :: buffered, c :: current => (b ||| c) :: orData buffered current

/-- The merge with `buffer` the packet later ones are compared with. -/
def orInto (buffer : NpuControlPacket) :
    List NpuControlPacket → Except String (List NpuControlPacket)
  | [] => .ok [buffer]
  | packet :: packets =>
    if buffer.address ≠ packet.address then do
      return buffer :: (← orInto packet packets)
    else
      match buffer.data, packet.data with
      | some bufferedData, some currentData =>
        orInto { buffer with data := some (orData bufferedData currentData) } packets
      | _, _ => .error
        "cannot OR consecutive control packets on the same address: control packet has no data payload"

attribute [local simp] orInto

def orConsecutiveWritesOnSameAddr :
    List NpuControlPacket → Except String (List NpuControlPacket)
  | [] => .ok []
  | packet :: packets => orInto packet packets

def lowerToControlPackets (ops : List TransactionBinaryOperation) :
    Except String (List NpuControlPacket) := do
  orConsecutiveWritesOnSameAddr (← emitControlPacketOps ops)

/-! ## Packets sent by DMA -/

inductive AIEArch
  | AIE1
  | AIE2
  | AIE2p
  | AIE2ps
deriving DecidableEq, Repr

structure NpuControlPacketOp extends NpuControlPacket where
  length : Option Word := none
deriving DecidableEq, Repr

/-- An operation of the entry block: a control packet, or another one. -/
inductive SeqOp (α : Type)
  | packet (p : NpuControlPacketOp)
  | other (a : α)

structure CtrlTarget where
  arch : AIEArch
  rowShift : ℕ
  columnShift : ℕ
  /-- `getRowToShimChanMap` for the DMA bundle. -/
  rowToShimChan : ℕ → ℕ
  /-- The type and id of a tile's `controller_id`. -/
  controllerId : ℕ → ℕ → Option (ℕ × ℕ)

namespace CtrlTarget

variable {α : Type} (T : CtrlTarget)

def getRowFromAddr (p : NpuControlPacketOp) : ℕ := ((p.address >>> T.rowShift) &&& 0x1f).toNat

def getColumnFromAddr (p : NpuControlPacketOp) : ℕ :=
  ((p.address >>> T.columnShift) &&& 0x1f).toNat

/-- The column and row a packet is sent to. -/
def tileId (p : NpuControlPacketOp) : ℕ × ℕ := (T.getColumnFromAddr p, T.getRowFromAddr p)

/-! ## The DMAs -/

def ctrlPktSize (p : NpuControlPacketOp) : ℕ :=
  (match p.data, p.length with
    | some data, _ => data.length
    | none, some length => length.toNat
    | none, none => 0) + 1 + 1

/-- A batch; `first` is the place of its first packet. -/
structure BatchInfo where
  tileId : ℕ × ℕ
  startOffset : ℕ
  totalSize : ℕ
  shimDmaAllocName : String
  shimChan : ℕ
  first : ℕ

/-- A batch of one packet at `ddrOffset`. -/
def newBatch (i ddrOffset : ℕ) (p : NpuControlPacketOp) : BatchInfo :=
  let shimChan := T.rowToShimChan (T.getRowFromAddr p)
  { tileId := T.tileId p
    startOffset := ddrOffset
    totalSize := ctrlPktSize p
    shimDmaAllocName := "ctrlpkt_col" ++ toString (T.getColumnFromAddr p) ++ "_mm2s_chan" ++
      toString shimChan
    shimChan := shimChan
    first := i }

/-- First pass: the batches, newest first. `i` is the place of the first operation left. -/
def collect : ℕ → Bool → ℕ → List BatchInfo → List (SeqOp α) → List BatchInfo
  | _, _, _, batches, [] => batches
  | i, _, ddrOffset, batches, .other _ :: rest => collect (i + 1) true ddrOffset batches rest
  | i, fresh, ddrOffset, batches, .packet p :: rest =>
    match batches with
    | b :: older =>
      if T.arch = .AIE2p ∧ fresh = false ∧ b.tileId = T.tileId p then
        collect (i + 1) false (ddrOffset + ctrlPktSize p)
          ({ b with totalSize := b.totalSize + ctrlPktSize p } :: older) rest
      else
        collect (i + 1) false (ddrOffset + ctrlPktSize p) (T.newBatch i ddrOffset p :: b :: older) rest
    | [] => collect (i + 1) false (ddrOffset + ctrlPktSize p) [T.newBatch i ddrOffset p] rest

end CtrlTarget

inductive DmaOp (α : Type)
  | other (a : α)
  | dmaMemcpyNd (offsets sizes strides : List ℕ) (metadata : String) (id : ℕ) (issueToken : Bool)
  | sync (column row direction channel columnNum rowNum : ℕ)

namespace CtrlTarget

variable {α : Type} (T : CtrlTarget)

/-- Second pass: every batch at its first packet. -/
def emit : ℕ → List BatchInfo → List (SeqOp α) → List (DmaOp α)
  | _, _, [] => []
  | i, batches, .other a :: rest => .other a :: emit (i + 1) batches rest
  | i, [], .packet _ :: rest => emit (i + 1) [] rest
  | i, b :: batches, .packet p :: rest =>
    if b.first ≠ i then emit (i + 1) (b :: batches) rest
    else
      .dmaMemcpyNd [0, 0, 0, b.startOffset] [1, 1, 1, b.totalSize] [0, 0, 0, 1]
          b.shimDmaAllocName 0 true ::
        .sync (T.getColumnFromAddr p) 0 1 b.shimChan 1 1 :: emit (i + 1) batches rest

def ctrlPacketToDma (ops : List (SeqOp α)) : Option (List (DmaOp α)) :=
  if T.arch = .AIE1 then none
  else some (T.emit 0 (T.collect 0 true 0 [] ops).reverse ops)

/-! ## The stream -/

def parity (n : Word) : Word := if ((List.range 32).countP n.getLsbD) % 2 = 0 then 1 else 0

def getMaxDataWords : ℕ := 4

def streamHeader (p : NpuControlPacketOp) : Word :=
  match T.controllerId (T.getColumnFromAddr p) (T.getRowFromAddr p) with
  | some info => (BitVec.ofNat 32 info.1 &&& 0x7) <<< 12 ||| (BitVec.ofNat 32 info.2 &&& 0xff)
  | none => 0

/-- The control header for `size` words. -/
def ctrlHeader (p : NpuControlPacketOp) (size : ℕ) : Word :=
  BitVec.ofNat 32 p.streamId <<< 24 ||| BitVec.ofNat 32 p.opcode <<< 22 |||
    BitVec.ofNat 32 (size - 1) <<< 20 ||| (p.address &&& 0xFFFFF)

/-- The words of one packet: two headers, then one word for each of its data. -/
def packetWords (p : NpuControlPacketOp) : Except String (List Word) :=
  let payload := (p.data.map List.length).getD 0
  let sizeFromLength := p.data.isNone && p.length.isSome
  let size := if sizeFromLength then (p.length.map BitVec.toNat).getD 0 else payload
  let what := if sizeFromLength then "length" else "payload"
  if size = 0 then
    .error (what ++ " is empty; a control packet must carry at least 1 word on the wire")
  else if size > getMaxDataWords then
    .error (what ++ " is " ++ toString size ++ " words; a control packet carries at most " ++
      toString getMaxDataWords ++
      " on the wire. Run --aie-legalize-control-packet before translating.")
  else
    let header (hdr : Word) : Word := hdr ||| (0x1 &&& parity hdr) <<< 31
    let headers := [header (T.streamHeader p), header (ctrlHeader p size)]
    if BitVec.ofNat 32 p.opcode = 0x0#32 ∨ BitVec.ofNat 32 p.opcode = 0x2#32 then
      match p.data with
      | none => .error "control packet with a write opcode requires a data payload"
      | some data => .ok (headers ++ data)
    else .ok (headers ++ List.replicate payload 0)

/-- **The words of the stream**: those of every packet, in order. -/
def translateControlPackets : List (SeqOp α) → Except String (List Word)
  | [] => .ok []
  | .other _ :: rest => translateControlPackets rest
  | .packet p :: rest => do
    let words ← T.packetWords p
    let stream ← translateControlPackets rest
    return words ++ stream

end CtrlTarget

end MlirAie.CtrlPkt
