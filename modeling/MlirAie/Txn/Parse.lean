import MlirAie.Lib.While

/-!
# Parsing a transaction binary

`parseTransactionBinary`, in both format versions. Every read of the byte vector past its end is
undefined, so a read is a parameter: a `Reader` gives the value of every 32-bit read inside the
vector and is free outside it.

* `Reader`, `Reader.checked`: the reads of a vector, and the ones that stop at its end;
* `parseOp`: one iteration of the loop, by version and opcode;
* `parseTransactionBinary`: the header and the loop.
-/

namespace MlirAie.Txn

open MlirAie.Lib

abbrev Byte := BitVec 8
abbrev Word := BitVec 32

/-- The opcodes `convertOpcode` lets through. -/
inductive TxnOpcode
  | WRITE
  | BLOCKWRITE
  | MASKWRITE
  | PREEMPT
  | LOAD_PDI
  | TCT
  | DDR_PATCH
deriving DecidableEq, Repr

def TxnOpcode.code : TxnOpcode → Byte
  | WRITE => 0
  | BLOCKWRITE => 1
  | MASKWRITE => 3
  | PREEMPT => 6
  | LOAD_PDI => 8
  | TCT => 0x80
  | DDR_PATCH => 0x81

/-- The two format versions, `0.1` and `1.0`. -/
inductive TxnVersion
  | v0_1
  | v1_0
deriving DecidableEq, Repr

/-- The driver command of an operation. `payload` is what `DataPtr` points to, `size` bytes long. -/
structure TxnCmd where
  opcode : TxnOpcode
  mask : Word := 0
  regOff : BitVec 64 := 0
  value : Word := 0
  payload : List Byte := []
  size : Word := 0
deriving DecidableEq, Repr

structure SyncPayload where
  column : Word
  row : Word
  direction : Word
  channel : Word
  columnCount : Word
  rowCount : Word
deriving DecidableEq, Repr

structure LoadPdiPayload where
  id : Word
  size : Word
  address : BitVec 64
deriving DecidableEq, Repr

structure AddressPatchPayload where
  action : Word
  addr : Word
  argIdx : Word
  argPlus : BitVec 64
deriving DecidableEq, Repr

structure TransactionBinaryOperation where
  cmd : TxnCmd
  sync : Option SyncPayload := none
  loadPdi : Option LoadPdiPayload := none
  addressPatch : Option AddressPatchPayload := none
deriving DecidableEq, Repr

/-- Why the parser stops: it rejects the binary, or it read at an offset past the end. -/
inductive Stop
  | rejected (message : String)
  | outOfRange (offset : ℕ)
deriving DecidableEq, Repr

/-! ## Reading the vector -/

def byteAt (data : List Byte) (o : ℕ) : Byte := data.getD o 0

/-- The little-endian word at `o`. -/
def wordAt (data : List Byte) (o : ℕ) : Word :=
  byteAt data (o + 3) ++ byteAt data (o + 2) ++ byteAt data (o + 1) ++ byteAt data o

def payloadWords : List Byte → List Word
  | b₀ :: b₁ :: b₂ :: b₃ :: rest => (b₃ ++ b₂ ++ b₁ ++ b₀) :: payloadWords rest
  | _ => []

/-- The 32-bit reads of a vector: the words inside it, anything at all past its end. -/
structure Reader (data : List Byte) where
  read32 : ℕ → Except Stop Word
  inRange : ∀ o, o + 4 ≤ data.length → read32 o = .ok (wordAt data o)

/-- The reader that stops at the first read past the end. -/
def Reader.checked (data : List Byte) : Reader data where
  read32 o := if o + 4 ≤ data.length then .ok (wordAt data o) else .error (.outOfRange o)
  inRange _ h := if_pos h

def truncated : String := "Transaction binary truncated while parsing opcode"

def requireBytes (data : List Byte) (offset length : ℕ) : Except Stop Unit :=
  if offset + length > data.length then .error (.rejected truncated) else .ok ()

/-- `opSize < least || !requireBytes(i, opSize)`; a size below `least` is rejected silently. -/
def requireOp (data : List Byte) (i opSize least : ℕ) : Except Stop Unit :=
  if opSize < least then .error (.rejected "") else requireBytes data i opSize

def convertOpcode (opc : Byte) : Except Stop TxnOpcode :=
  if opc = TxnOpcode.WRITE.code then .ok .WRITE
  else if opc = TxnOpcode.BLOCKWRITE.code then .ok .BLOCKWRITE
  else if opc = TxnOpcode.MASKWRITE.code then .ok .MASKWRITE
  else if opc = TxnOpcode.PREEMPT.code then .ok .PREEMPT
  else if opc = TxnOpcode.LOAD_PDI.code then .ok .LOAD_PDI
  else if opc = TxnOpcode.TCT.code then .ok .TCT
  else if opc = TxnOpcode.DDR_PATCH.code then .ok .DDR_PATCH
  else .error (.rejected ("Unhandled opcode: " ++ toString opc.toNat))

/-! ## The operations -/

section Operations

variable {data : List Byte} (R : Reader data) (i : ℕ)

def parseWrite_v0_1 : Except Stop (TransactionBinaryOperation × ℕ) := do
  requireBytes data i 24
  let addrLo ← R.read32 (i + 8)
  let addrHi ← R.read32 (i + 12)
  let value ← R.read32 (i + 16)
  let opSize ← R.read32 (i + 20)
  requireBytes data i opSize.toNat
  let addr : BitVec 64 := (addrHi.setWidth 64 <<< 32) ||| addrLo.setWidth 64
  return (⟨{ opcode := .WRITE, regOff := addr, value := value, size := 0 }, none, none, none⟩,
    i + opSize.toNat)

def parseBlockWrite_v0_1 : Except Stop (TransactionBinaryOperation × ℕ) := do
  requireBytes data i 16
  let addr ← R.read32 (i + 8)
  let opSize ← R.read32 (i + 12)
  requireOp data i opSize.toNat 16
  let payloadBytes := opSize - 16
  return (⟨{ opcode := .BLOCKWRITE, regOff := addr.setWidth 64,
             payload := (data.drop (i + 16)).take payloadBytes.toNat, size := payloadBytes },
    none, none, none⟩, i + opSize.toNat)

def parseMaskWrite_v0_1 : Except Stop (TransactionBinaryOperation × ℕ) := do
  requireBytes data i 28
  let addrLo ← R.read32 (i + 8)
  let addrHi ← R.read32 (i + 12)
  let value ← R.read32 (i + 16)
  let mask ← R.read32 (i + 20)
  let opSize ← R.read32 (i + 24)
  requireBytes data i opSize.toNat
  let addr : BitVec 64 := (addrHi.setWidth 64 <<< 32) ||| addrLo.setWidth 64
  return (⟨{ opcode := .MASKWRITE, mask := mask, regOff := addr, value := value, size := opSize },
    none, none, none⟩, i + opSize.toNat)

def parseWrite_v1_0 : Except Stop (TransactionBinaryOperation × ℕ) := do
  requireBytes data i 12
  let addr ← R.read32 (i + 4)
  let value ← R.read32 (i + 8)
  return (⟨{ opcode := .WRITE, regOff := addr.setWidth 64, value := value, size := 0 },
    none, none, none⟩, i + 12)

def parseBlockWrite_v1_0 : Except Stop (TransactionBinaryOperation × ℕ) := do
  requireBytes data i 12
  let addr ← R.read32 (i + 4)
  let opSize ← R.read32 (i + 8)
  requireOp data i opSize.toNat 12
  let payloadBytes := opSize - 12
  return (⟨{ opcode := .BLOCKWRITE, regOff := addr.setWidth 64,
             payload := (data.drop (i + 12)).take payloadBytes.toNat, size := payloadBytes },
    none, none, none⟩, i + opSize.toNat)

def parseMaskWrite_v1_0 : Except Stop (TransactionBinaryOperation × ℕ) := do
  requireBytes data i 16
  let addr ← R.read32 (i + 4)
  let value ← R.read32 (i + 8)
  let mask ← R.read32 (i + 12)
  return (⟨{ opcode := .MASKWRITE, mask := mask, regOff := addr.setWidth 64, value := value,
             size := 0 }, none, none, none⟩, i + 16)

/-- Both versions; the op size is read before anything is checked. -/
def parseTct : Except Stop (TransactionBinaryOperation × ℕ) := do
  let opSize ← R.read32 (i + 4)
  requireOp data i opSize.toNat 16
  let descriptor ← R.read32 (i + 8)
  let config ← R.read32 (i + 12)
  let payload : SyncPayload :=
    { column := (descriptor >>> 16) &&& 0xff#32
      row := (descriptor >>> 8) &&& 0xff#32
      direction := descriptor &&& 0xff#32
      channel := (config >>> 24) &&& 0xff#32
      columnCount := (config >>> 16) &&& 0xff#32
      rowCount := (config >>> 8) &&& 0xff#32 }
  return (⟨{ opcode := .TCT, size := opSize }, some payload, none, none⟩, i + opSize.toNat)

variable (data) in
/-- Both versions; the header is copied out whole, `id` at byte 2. -/
def parseLoadPdi : Except Stop (TransactionBinaryOperation × ℕ) := do
  requireBytes data i 16
  let id := byteAt data (i + 3) ++ byteAt data (i + 2)
  let address : BitVec 64 := wordAt data (i + 12) ++ wordAt data (i + 8)
  return (⟨{ opcode := .LOAD_PDI, size := 16 }, none,
    some ⟨id.setWidth 32, wordAt data (i + 4), address⟩, none⟩, i + 16)

/-- Both versions; `argPlus` ends at byte 48, four past the least size let through. -/
def parseDdrPatch : Except Stop (TransactionBinaryOperation × ℕ) := do
  let opSize ← R.read32 (i + 4)
  requireOp data i opSize.toNat 44
  let action ← R.read32 (i + 20)
  let addr ← R.read32 (i + 24)
  let argIdx ← R.read32 (i + 32)
  let argPlusLo ← R.read32 (i + 40)
  let argPlusHi ← R.read32 (i + 44)
  let argPlus : BitVec 64 := argPlusLo.setWidth 64 ||| (argPlusHi.setWidth 64 <<< 32)
  return (⟨{ opcode := .DDR_PATCH, size := opSize }, none, none,
    some ⟨action, addr, argIdx, argPlus⟩⟩, i + opSize.toNat)

variable (data) in
/-- Both versions; one word, the level in byte 1. -/
def parsePreempt : Except Stop (TransactionBinaryOperation × ℕ) := do
  requireBytes data i 4
  return (⟨{ opcode := .PREEMPT, value := (byteAt data (i + 1)).setWidth 32, size := 4 },
    none, none, none⟩, i + 4)

/-- The `switch` of each version's loop. -/
def parseOpcode (version : TxnVersion) (opcode : TxnOpcode) :
    Except Stop (TransactionBinaryOperation × ℕ) :=
  match version, opcode with
  | .v0_1, .WRITE => parseWrite_v0_1 R i
  | .v0_1, .BLOCKWRITE => parseBlockWrite_v0_1 R i
  | .v0_1, .MASKWRITE => parseMaskWrite_v0_1 R i
  | .v1_0, .WRITE => parseWrite_v1_0 R i
  | .v1_0, .BLOCKWRITE => parseBlockWrite_v1_0 R i
  | .v1_0, .MASKWRITE => parseMaskWrite_v1_0 R i
  | _, .TCT => parseTct R i
  | _, .LOAD_PDI => parseLoadPdi data i
  | _, .DDR_PATCH => parseDdrPatch R i
  | _, .PREEMPT => parsePreempt data i

/-- One iteration of the loop: the operation at `i` and the cursor after it. -/
def parseOp (version : TxnVersion) : Except Stop (TransactionBinaryOperation × ℕ) := do
  let opcode ← convertOpcode (byteAt data i)
  parseOpcode R i version opcode

end Operations

/-! ## The binary -/

/-- The loop's state: the cursor and the operations so far. -/
structure ParseState where
  i : ℕ
  ops : List TransactionBinaryOperation
deriving DecidableEq, Repr

/-- `while (i < data.size())`. -/
def parseLoop {data : List Byte} (R : Reader data) (version : TxnVersion) :
    Loop ParseState Stop where
  guard s := s.i < data.length
  body s := do
    let (op, j) ← parseOp R s.i version
    return ⟨j, s.ops ++ [op]⟩

def kTxnHeaderBytes : ℕ := 16

def txnVersion (data : List Byte) : Except Stop TxnVersion :=
  if byteAt data 0 = 0 ∧ byteAt data 1 = 1 then .ok .v0_1
  else if byteAt data 0 = 1 ∧ byteAt data 1 = 0 then .ok .v1_0
  else .error (.rejected ("Unsupported TXN binary version: " ++ toString (byteAt data 0).toNat
    ++ "." ++ toString (byteAt data 1).toNat))

/-- What the parser hands back: the column count of the header, the operations, and the cursor. -/
structure Parsed where
  numCols : ℕ
  ops : List TransactionBinaryOperation
  cursor : ℕ
deriving DecidableEq, Repr

/-- **The parser**, its loop on `fuel`; `none` is a loop still going. -/
def parseTransactionBinary {data : List Byte} (R : Reader data) (fuel : ℕ) :
    Option (Except Stop Parsed) :=
  if data.length < kTxnHeaderBytes then
    some (.error (.rejected "Transaction binary is too small for header"))
  else
    match txnVersion data with
    | .error e => some (.error e)
    | .ok version =>
      ((parseLoop R version).run fuel ⟨kTxnHeaderBytes, []⟩).map fun r =>
        r.map fun s => ⟨(byteAt data 4).toNat, s.ops, s.i⟩

end MlirAie.Txn
