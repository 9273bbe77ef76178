import MlirAie.Txn.Parse

/-!
# Encoding a transaction

The standalone encoder: one append function per instruction, each writing its own words, between
`txnInit` and `txnPrependHeader`.

* `txnAppendWrite32` … `txnAppendPreempt`: the instructions;
* `txnBuild`: the binary of a list of instructions;
* `txnBytes`: its little-endian bytes.
-/

namespace MlirAie.Txn

structure TxnDeviceInfo where
  major : Byte := 0
  minor : Byte := 1
  devGen : Byte := 3
  numRows : Byte := 6
  numCols : Byte := 5
  numMemTileRows : Byte := 1
deriving DecidableEq, Repr

def TXN_OPC_WRITE : Word := 0
def TXN_OPC_BLOCKWRITE : Word := 1
def TXN_OPC_MASKWRITE : Word := 3
def TXN_OPC_PREEMPT : Word := 6
def TXN_OPC_LOADPDI : Word := 8
def TXN_OPC_TCT : Word := 0x80
def TXN_OPC_DDR_PATCH : Word := 0x81

/-- `n * sizeof(uint32_t)` as a `uint32_t`. -/
def sizeofWords (n : ℕ) : Word := BitVec.ofNat 32 (n * 4)

def txnAppendWrite32 (txn : List Word) (addr val : Word) : List Word :=
  txn ++ [TXN_OPC_WRITE, 0, addr, 0, val, sizeofWords 6]

def txnAppendMaskwrite32 (txn : List Word) (addr val mask : Word) : List Word :=
  txn ++ [TXN_OPC_MASKWRITE, 0, addr, 0, val, mask, sizeofWords 7]

def txnAppendSync (txn : List Word) (col row dir chan ncol nrow : Word) : List Word :=
  txn ++ [TXN_OPC_TCT, sizeofWords 4,
    (dir &&& 0xff#32) ||| ((row &&& 0xff#32) <<< 8) ||| ((col &&& 0xff#32) <<< 16),
    ((nrow &&& 0xff#32) <<< 8) ||| ((ncol &&& 0xff#32) <<< 16) ||| ((chan &&& 0xff#32) <<< 24)]

def txnAppendBlockwrite (txn : List Word) (addr : Word) (data : List Word) (col row : Word) :
    List Word :=
  txn ++ [TXN_OPC_BLOCKWRITE, (col &&& 0xff#32) ||| ((row &&& 0xff#32) <<< 8), addr,
    sizeofWords (4 + data.length)] ++ data

def txnAppendAddressPatch (txn : List Word) (addr argIdx : Word) (argPlus : BitVec 64) :
    List Word :=
  txn ++ [TXN_OPC_DDR_PATCH, sizeofWords 12, 0, 0, 0, 0, addr, 0, argIdx, 0,
    (argPlus &&& 0xFFFFFFFF#64).truncate 32, (argPlus >>> 32).truncate 32]

def txnAppendLoadpdi (txn : List Word) (id size : Word) (addr : BitVec 64) : List Word :=
  txn ++ [TXN_OPC_LOADPDI ||| (id <<< 16), size, addr.truncate 32, (addr >>> 32).truncate 32]

def txnAppendPreempt (txn : List Word) (level : Word) : List Word :=
  txn ++ [TXN_OPC_PREEMPT ||| (level <<< 8)]

/-- `txn.resize(4, 0)`. -/
def txnInit (txn : List Word) : List Word := txn.take 4 ++ List.replicate (4 - txn.length) 0

def txnPrependHeader (txn : List Word) (opCount : Word) (info : TxnDeviceInfo) : List Word :=
  let txn := if txn.length < 4 then txnInit txn else txn
  let version : Word := (info.numRows.setWidth 32 <<< 24) ||| (info.devGen.setWidth 32 <<< 16) |||
    (info.minor.setWidth 32 <<< 8) ||| info.major.setWidth 32
  let shape : Word := (info.numMemTileRows.setWidth 32 <<< 8) ||| info.numCols.setWidth 32
  (((txn.set 0 version).set 1 shape).set 2 opCount).set 3 (sizeofWords txn.length)

/-! ## Transactions -/

inductive TxnOp
  | write32 (addr val : Word)
  | maskwrite32 (addr val mask : Word)
  | blockwrite (addr : Word) (data : List Word) (col row : Word)
  | sync (col row dir chan ncol nrow : Word)
  | addressPatch (addr argIdx : Word) (argPlus : BitVec 64)
  | loadpdi (id size : Word) (addr : BitVec 64)
  | preempt (level : Word)
deriving DecidableEq, Repr

def TxnOp.append (txn : List Word) : TxnOp → List Word
  | write32 addr val => txnAppendWrite32 txn addr val
  | maskwrite32 addr val mask => txnAppendMaskwrite32 txn addr val mask
  | blockwrite addr data col row => txnAppendBlockwrite txn addr data col row
  | sync col row dir chan ncol nrow => txnAppendSync txn col row dir chan ncol nrow
  | addressPatch addr argIdx argPlus => txnAppendAddressPatch txn addr argIdx argPlus
  | loadpdi id size addr => txnAppendLoadpdi txn id size addr
  | preempt level => txnAppendPreempt txn level

def TxnOp.words (op : TxnOp) : List Word := op.append []

/-- The binary of a list of instructions. -/
def txnBuild (info : TxnDeviceInfo) (ops : List TxnOp) : List Word :=
  txnPrependHeader (ops.foldl TxnOp.append (txnInit [])) (BitVec.ofNat 32 ops.length) info

def wordBytes (w : Word) : List Byte :=
  [w.extractLsb' 0 8, w.extractLsb' 8 8, w.extractLsb' 16 8, w.extractLsb' 24 8]

def txnBytes (txn : List Word) : List Byte := txn.flatMap wordBytes

def TxnOp.Fits : TxnOp → Prop
  | sync col row dir chan ncol nrow =>
    col.toNat < 256 ∧ row.toNat < 256 ∧ dir.toNat < 256 ∧ chan.toNat < 256 ∧ ncol.toNat < 256 ∧
      nrow.toNat < 256
  | loadpdi id _ _ => id.toNat < 2 ^ 16
  | preempt level => level.toNat < 256
  | _ => True

def TxnOp.parsed : TxnOp → TransactionBinaryOperation
  | write32 addr val => ⟨{ opcode := .WRITE, regOff := addr.setWidth 64, value := val },
      none, none, none⟩
  | maskwrite32 addr val mask =>
      ⟨{ opcode := .MASKWRITE, regOff := addr.setWidth 64, value := val, mask := mask, size := 28 },
        none, none, none⟩
  | blockwrite addr data _ _ =>
      ⟨{ opcode := .BLOCKWRITE, regOff := addr.setWidth 64, payload := txnBytes data,
         size := sizeofWords data.length }, none, none, none⟩
  | sync col row dir chan ncol nrow =>
      ⟨{ opcode := .TCT, size := 16 },
        some { column := col, row := row, direction := dir, channel := chan, columnCount := ncol,
               rowCount := nrow }, none, none⟩
  | addressPatch addr argIdx argPlus =>
      ⟨{ opcode := .DDR_PATCH, size := 48 }, none, none,
        some { action := 0, addr := addr, argIdx := argIdx, argPlus := argPlus }⟩
  | loadpdi id size addr =>
      ⟨{ opcode := .LOAD_PDI, size := 16 }, none, some { id := id, size := size, address := addr },
        none⟩
  | preempt level => ⟨{ opcode := .PREEMPT, value := level, size := 4 }, none, none, none⟩

/-! ## Appending -/

theorem TxnOp.append_eq (txn : List Word) (op : TxnOp) : op.append txn = txn ++ op.words := by
  cases op <;> simp [TxnOp.append, TxnOp.words, txnAppendWrite32, txnAppendMaskwrite32,
    txnAppendBlockwrite, txnAppendSync, txnAppendAddressPatch, txnAppendLoadpdi, txnAppendPreempt]

theorem foldl_append_eq (txn : List Word) (ops : List TxnOp) :
    ops.foldl TxnOp.append txn = txn ++ ops.flatMap TxnOp.words := by
  induction ops generalizing txn with
  | nil => simp
  | cons op ops ih => simp [ih, TxnOp.append_eq]

theorem txnBuild_eq (info : TxnDeviceInfo) (ops : List TxnOp) :
    ∃ opCount size : Word, txnBuild info ops =
      [(info.numRows.setWidth 32 <<< 24) ||| (info.devGen.setWidth 32 <<< 16) |||
          (info.minor.setWidth 32 <<< 8) ||| info.major.setWidth 32,
        (info.numMemTileRows.setWidth 32 <<< 8) ||| info.numCols.setWidth 32, opCount, size] ++
      ops.flatMap TxnOp.words := by
  refine ⟨BitVec.ofNat 32 ops.length,
    sizeofWords ([0, 0, 0, 0] ++ ops.flatMap TxnOp.words : List Word).length, ?_⟩
  have hinit : txnInit [] = [0, 0, 0, 0] := rfl
  have hlen : ¬([0, 0, 0, 0] ++ ops.flatMap TxnOp.words : List Word).length < 4 := by simp
  rw [txnBuild, foldl_append_eq, hinit]
  unfold txnPrependHeader
  rw [if_neg hlen]
  rfl

@[simp] theorem wordBytes_length (w : Word) : (wordBytes w).length = 4 := rfl

@[simp] theorem txnBytes_length (txn : List Word) : (txnBytes txn).length = 4 * txn.length := by
  induction txn with
  | nil => rfl
  | cons w txn ih =>
    simp only [txnBytes, List.flatMap_cons, List.length_append, wordBytes_length,
      List.length_cons] at ih ⊢
    omega

theorem txnBytes_append (s t : List Word) : txnBytes (s ++ t) = txnBytes s ++ txnBytes t := by
  simp [txnBytes]

end MlirAie.Txn
