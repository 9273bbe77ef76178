import MlirAie.Txn.Encode
import MlirAie.Txn.Frame

/-!
# Parsing undoes encoding

The parser reads back, from the bytes of an encoded transaction, the instructions it was built
from. The loop's invariant is where the cursor stands: `data.drop i` is the bytes of the
instructions not parsed yet.

* `wordAt_drop`, `wordAt_txnBytes`: reading the words of what is left;
* `parseOp_words`: one iteration over the bytes of one instruction;
* **`parseTransactionBinary_txnBuild`**: the parse of an encoded transaction.
-/

namespace MlirAie.Txn

open MlirAie.Lib

/-! ## Bytes of words -/

theorem byteAt_drop (data : List Byte) (i o : ℕ) : byteAt data (i + o) = byteAt (data.drop i) o := by
  simp [byteAt, List.getD]

theorem wordAt_drop (data : List Byte) (i o : ℕ) : wordAt data (i + o) = wordAt (data.drop i) o := by
  simp only [wordAt, Nat.add_assoc, byteAt_drop]

@[simp] theorem wordAt_zero (w : Word) (txn : List Word) (rest : List Byte) :
    wordAt (txnBytes (w :: txn) ++ rest) 0 = w := by
  simp only [txnBytes, wordAt, byteAt, wordBytes, List.getD, List.flatMap_cons]
  ext i hi
  simp
  grind

@[simp] theorem wordAt_succ (w : Word) (txn : List Word) (rest : List Byte) (o : ℕ) :
    wordAt (txnBytes (w :: txn) ++ rest) (o + 4) = wordAt (txnBytes txn ++ rest) o := by
  simp [txnBytes, wordAt, byteAt, wordBytes, List.getD]

theorem byteAt_first (w : Word) (txn : List Word) (rest : List Byte) :
    byteAt (txnBytes (w :: txn) ++ rest) 0 = w.extractLsb' 0 8 ∧
      byteAt (txnBytes (w :: txn) ++ rest) 1 = w.extractLsb' 8 8 ∧
      byteAt (txnBytes (w :: txn) ++ rest) 2 = w.extractLsb' 16 8 ∧
      byteAt (txnBytes (w :: txn) ++ rest) 3 = w.extractLsb' 24 8 :=
  ⟨rfl, rfl, rfl, rfl⟩

/-! ## One instruction at a time -/

section Instructions

variable {data post : List Byte} (R : Reader data) {i : ℕ}

/-- What is left of the binary at `i` starts with the words `ws`. -/
def Holds (data : List Byte) (i : ℕ) (ws : List Word) (post : List Byte) : Prop :=
  i ≤ data.length ∧ data.drop i = txnBytes ws ++ post

theorem Holds.room {ws : List Word} (h : Holds data i ws post) :
    i + 4 * ws.length ≤ data.length := by
  have := congrArg List.length h.2
  simp only [List.length_drop, List.length_append, txnBytes_length] at this
  have := h.1
  omega

theorem Holds.word {ws : List Word} (h : Holds data i ws post) (o : ℕ) :
    wordAt data (i + o) = wordAt (txnBytes ws ++ post) o := by
  rw [wordAt_drop, h.2]

theorem Holds.byte {ws : List Word} (h : Holds data i ws post) (o : ℕ) :
    byteAt data (i + o) = byteAt (txnBytes ws ++ post) o := by
  rw [byteAt_drop, h.2]

/-- Bytes picked out of a packed word. -/
theorem and_0xff {w : Word} (h : w.toNat < 256) : w &&& 0xff#32 = w := by
  apply BitVec.eq_of_toNat_eq
  simpa using Nat.and_two_pow_sub_one_of_lt_two_pow (n := 8) h

theorem setWidth_setWidth_of_lt {w : Word} {k : ℕ} (h : w.toNat < 2 ^ k) :
    (w.setWidth k).setWidth 32 = w := by
  apply BitVec.eq_of_toNat_eq
  simp only [BitVec.toNat_setWidth, Nat.mod_eq_of_lt h]
  omega

theorem lo_or_hi (a : BitVec 64) :
    ((a &&& 0xFFFFFFFF#64).truncate 32).setWidth 64 |||
      ((a >>> 32).truncate 32).setWidth 64 <<< 32 = a := by
  have hmask : 0xFFFFFFFF#64 = (BitVec.allOnes 32).setWidth 64 := rfl
  rw [hmask]
  ext k hk
  simp only [BitVec.getElem_or, BitVec.getElem_setWidth, BitVec.getLsbD_setWidth,
    BitVec.getLsbD_and, BitVec.getElem_shiftLeft, BitVec.getLsbD_ushiftRight,
    BitVec.getLsbD_allOnes]
  by_cases h : k < 32
  · simp [h, hk]
  · have hk' : 32 + (k - 32) = k := by omega
    simp [h, hk', BitVec.getLsbD_eq_getElem hk]
    omega

theorem hi_append_lo (a : BitVec 64) :
    (a >>> 32).truncate 32 ++ a.truncate 32 = a := by
  ext k hk
  simp only [BitVec.getElem_append]
  split_ifs with h
  · rw [BitVec.truncate_eq_setWidth, BitVec.getElem_setWidth]
    exact BitVec.getLsbD_eq_getElem hk
  · have hk' : 32 + (k - 32) = k := by omega
    simp [hk', BitVec.getLsbD_eq_getElem hk]

theorem loadpdi_id {id : Word} (h : id.toNat < 2 ^ 16) :
    ((TXN_OPC_LOADPDI ||| (id <<< 16)).extractLsb' 24 8 ++
      (TXN_OPC_LOADPDI ||| (id <<< 16)).extractLsb' 16 8).setWidth 32 = id := by
  rw [← setWidth_setWidth_of_lt h]
  ext i hi
  simp only [BitVec.getElem_setWidth, BitVec.getLsbD_append, BitVec.getLsbD_extractLsb']
  interval_cases i <;> simp [TXN_OPC_LOADPDI]

theorem loadpdi_code (id : Word) :
    (TXN_OPC_LOADPDI ||| (id <<< 16)).extractLsb' 0 8 = TxnOpcode.LOAD_PDI.code := by
  ext i hi
  interval_cases i <;> simp [TXN_OPC_LOADPDI, TxnOpcode.code]

theorem preempt_level {level : Word} (h : level.toNat < 256) :
    ((TXN_OPC_PREEMPT ||| (level <<< 8)).extractLsb' 8 8).setWidth 32 = level := by
  rw [← setWidth_setWidth_of_lt (k := 8) h]
  ext i hi
  interval_cases i <;> simp [TXN_OPC_PREEMPT]

theorem preempt_code (level : Word) :
    (TXN_OPC_PREEMPT ||| (level <<< 8)).extractLsb' 0 8 = TxnOpcode.PREEMPT.code := by
  ext i hi
  interval_cases i <;> simp [TXN_OPC_PREEMPT, TxnOpcode.code]

theorem descriptor_bytes (a b c : Word) :
    let d : Word := (a &&& 0xff#32) ||| ((b &&& 0xff#32) <<< 8) ||| ((c &&& 0xff#32) <<< 16)
    d &&& 0xff#32 = a &&& 0xff#32 ∧ (d >>> 8) &&& 0xff#32 = b &&& 0xff#32 ∧
      (d >>> 16) &&& 0xff#32 = c &&& 0xff#32 := by
  refine ⟨?_, ?_, ?_⟩ <;> ext i hi <;> interval_cases i <;> simp

theorem config_bytes (a b c : Word) :
    let d : Word := ((a &&& 0xff#32) <<< 8) ||| ((b &&& 0xff#32) <<< 16) ||| ((c &&& 0xff#32) <<< 24)
    (d >>> 8) &&& 0xff#32 = a &&& 0xff#32 ∧ (d >>> 16) &&& 0xff#32 = b &&& 0xff#32 ∧
      (d >>> 24) &&& 0xff#32 = c &&& 0xff#32 := by
  refine ⟨?_, ?_, ?_⟩ <;> ext i hi <;> interval_cases i <;> simp

theorem Holds.skip {ws : List Word} (h : Holds data i ws post) :
    Holds data (i + 4 * ws.length) [] post := by
  refine ⟨h.room, ?_⟩
  rw [← List.drop_drop, h.2, ← txnBytes_length, List.drop_left]
  rfl

theorem parseWrite_words {addr val : Word}
    (h : Holds data i (TxnOp.write32 addr val).words post) :
    parseWrite_v0_1 R i = .ok ((TxnOp.write32 addr val).parsed, i + 24) := by
  have hroom : i + 24 ≤ data.length := h.room
  have hword := h.word
  simp only [TxnOp.words, TxnOp.append, txnAppendWrite32, List.nil_append] at hword
  have hreq : requireBytes data i 24 = .ok () := requireBytes_of_le hroom
  unfold parseWrite_v0_1
  simp (disch := omega) only [R.read32_bind, hreq, hword, wordAt_succ, wordAt_zero]
  simp [hreq, sizeofWords, TxnOp.parsed, bind, Except.bind, pure, Except.pure]

theorem parseMaskWrite_words {addr val mask : Word}
    (h : Holds data i (TxnOp.maskwrite32 addr val mask).words post) :
    parseMaskWrite_v0_1 R i = .ok ((TxnOp.maskwrite32 addr val mask).parsed, i + 28) := by
  have hroom : i + 28 ≤ data.length := h.room
  have hword := h.word
  simp only [TxnOp.words, TxnOp.append, txnAppendMaskwrite32, List.nil_append] at hword
  have hreq : requireBytes data i 28 = .ok () := requireBytes_of_le hroom
  unfold parseMaskWrite_v0_1
  simp (disch := omega) only [R.read32_bind, hreq, hword, wordAt_succ, wordAt_zero]
  simp [hreq, sizeofWords, TxnOp.parsed, bind, Except.bind, pure, Except.pure]

theorem parseTct_words {col row dir chan ncol nrow : Word}
    (hfit : (TxnOp.sync col row dir chan ncol nrow).Fits)
    (h : Holds data i (TxnOp.sync col row dir chan ncol nrow).words post) :
    parseTct R i = .ok ((TxnOp.sync col row dir chan ncol nrow).parsed, i + 16) := by
  have hroom : i + 16 ≤ data.length := h.room
  have hword := h.word
  simp only [TxnOp.words, TxnOp.append, txnAppendSync, List.nil_append] at hword
  have hreq : requireOp data i 16 16 = .ok () := requireOp_of_le (by omega) hroom
  obtain ⟨hcol, hrow, hdir, hchan, hncol, hnrow⟩ := hfit
  obtain ⟨hd₀, hd₁, hd₂⟩ := descriptor_bytes dir row col
  obtain ⟨hc₁, hc₂, hc₃⟩ := config_bytes nrow ncol chan
  unfold parseTct
  simp (disch := omega) only [R.read32_bind, hword, wordAt_succ, wordAt_zero]
  rw [hd₀, hd₁, hd₂, hc₁, hc₂, hc₃, and_0xff hcol, and_0xff hrow, and_0xff hdir, and_0xff hchan,
    and_0xff hncol, and_0xff hnrow]
  simp [hreq, sizeofWords, TxnOp.parsed, bind, Except.bind, pure, Except.pure]

theorem parseBlockWrite_words {addr : Word} {ws : List Word} {col row : Word}
    (hsize : 4 * (TxnOp.blockwrite addr ws col row).words.length < 2 ^ 32)
    (h : Holds data i (TxnOp.blockwrite addr ws col row).words post) :
    parseBlockWrite_v0_1 R i = .ok ((TxnOp.blockwrite addr ws col row).parsed,
      i + 4 * (TxnOp.blockwrite addr ws col row).words.length) := by
  have hroom := h.room
  have hword := h.word
  simp only [TxnOp.words, TxnOp.append, txnAppendBlockwrite, List.nil_append, List.cons_append,
    List.length_cons] at hroom hword hsize ⊢
  have hopSize : (sizeofWords (4 + ws.length)).toNat = 4 * ws.length + 16 := by
    simp only [sizeofWords, BitVec.toNat_ofNat]
    omega
  have hpayload : sizeofWords (4 + ws.length) - 16 = sizeofWords ws.length := by
    apply BitVec.eq_of_toNat_eq
    simp [BitVec.toNat_sub, sizeofWords]
    omega
  have hreq : requireBytes data i 16 = .ok () := requireBytes_of_le (by omega)
  have hreqOp : requireOp data i (4 * ws.length + 16) 16 = .ok () :=
    requireOp_of_le (by omega) (by omega)
  unfold parseBlockWrite_v0_1
  simp (disch := omega) only [R.read32_bind, hreq, hword, wordAt_succ, wordAt_zero, hopSize, hreqOp,
    hpayload]
  have hbytes : (data.drop (i + 16)).take (sizeofWords ws.length).toNat = txnBytes ws := by
    have hlen : (sizeofWords ws.length).toNat = (txnBytes ws).length := by
      rw [txnBytes_length, sizeofWords, BitVec.toNat_ofNat]
      omega
    rw [← List.drop_drop, h.2, hlen]
    exact List.take_left
  rw [hbytes]
  simp [TxnOp.parsed, bind, Except.bind, pure, Except.pure]
  omega

theorem parseDdrPatch_words {addr argIdx : Word} {argPlus : BitVec 64}
    (h : Holds data i (TxnOp.addressPatch addr argIdx argPlus).words post) :
    parseDdrPatch R i = .ok ((TxnOp.addressPatch addr argIdx argPlus).parsed, i + 48) := by
  have hroom : i + 48 ≤ data.length := h.room
  have hword := h.word
  simp only [TxnOp.words, TxnOp.append, txnAppendAddressPatch, List.nil_append] at hword
  have hreq : requireOp data i 48 44 = .ok () := requireOp_of_le (by omega) hroom
  unfold parseDdrPatch
  simp (disch := omega) only [R.read32_bind, hword, wordAt_succ, wordAt_zero]
  rw [lo_or_hi]
  simp [hreq, sizeofWords, TxnOp.parsed, bind, Except.bind, pure, Except.pure]

theorem parseLoadPdi_words {id size : Word} {addr : BitVec 64}
    (hfit : (TxnOp.loadpdi id size addr).Fits)
    (h : Holds data i (TxnOp.loadpdi id size addr).words post) :
    parseLoadPdi data i = .ok ((TxnOp.loadpdi id size addr).parsed, i + 16) := by
  have hroom : i + 16 ≤ data.length := h.room
  have hword := h.word
  have hbyte := h.byte
  simp only [TxnOp.words, TxnOp.append, txnAppendLoadpdi, List.nil_append] at hword hbyte
  have hreq : requireBytes data i 16 = .ok () := requireBytes_of_le hroom
  obtain ⟨-, -, hb₂, hb₃⟩ := byteAt_first (TXN_OPC_LOADPDI ||| (id <<< 16))
    [size, addr.truncate 32, (addr >>> 32).truncate 32] post
  unfold parseLoadPdi
  simp only [hword, hbyte, hb₂, hb₃, wordAt_succ, wordAt_zero, loadpdi_id hfit, hi_append_lo]
  simp [hreq, TxnOp.parsed, bind, Except.bind, pure, Except.pure]

theorem parsePreempt_words {level : Word} (hfit : (TxnOp.preempt level).Fits)
    (h : Holds data i (TxnOp.preempt level).words post) :
    parsePreempt data i = .ok ((TxnOp.preempt level).parsed, i + 4) := by
  have hroom : i + 4 ≤ data.length := h.room
  have hbyte := h.byte
  simp only [TxnOp.words, TxnOp.append, txnAppendPreempt, List.nil_append] at hbyte
  have hreq : requireBytes data i 4 = .ok () := requireBytes_of_le hroom
  obtain ⟨-, hb₁, -⟩ := byteAt_first (TXN_OPC_PREEMPT ||| (level <<< 8)) [] post
  unfold parsePreempt
  simp only [hbyte, hb₁, preempt_level hfit]
  simp [hreq, TxnOp.parsed, bind, Except.bind, pure, Except.pure]

def TxnOp.opcode : TxnOp → TxnOpcode
  | write32 .. => .WRITE
  | maskwrite32 .. => .MASKWRITE
  | blockwrite .. => .BLOCKWRITE
  | sync .. => .TCT
  | addressPatch .. => .DDR_PATCH
  | loadpdi .. => .LOAD_PDI
  | preempt .. => .PREEMPT

theorem Holds.opcode {op : TxnOp} (h : Holds data i op.words post) :
    byteAt data i = op.opcode.code := by
  have hbyte := h.byte 0
  rw [Nat.add_zero] at hbyte
  rw [hbyte]
  cases op with
  | loadpdi id _ _ => exact loadpdi_code id
  | preempt level => exact preempt_code level
  | _ => rfl

/-- **One iteration over one instruction.** -/
theorem parseOp_words {op : TxnOp} (hfit : op.Fits) (hsize : 4 * op.words.length < 2 ^ 32)
    (h : Holds data i op.words post) :
    parseOp R i .v0_1 = .ok (op.parsed, i + 4 * op.words.length) := by
  have hop : parseOp R i .v0_1 = parseOpcode R i .v0_1 op.opcode := by
    rw [parseOp, h.opcode, convertOpcode_code]
    rfl
  rw [hop]
  cases op with
  | write32 => exact parseWrite_words R h
  | maskwrite32 => exact parseMaskWrite_words R h
  | blockwrite => exact parseBlockWrite_words R hsize h
  | sync => exact parseTct_words R hfit h
  | addressPatch => exact parseDdrPatch_words R h
  | loadpdi => exact parseLoadPdi_words hfit h
  | preempt => exact parsePreempt_words hfit h

end Instructions

/-! ## The binary -/

section Binary

variable {data post : List Byte} (R : Reader data) {i : ℕ}

/-- The words of one instruction, then those of the rest. -/
theorem Holds.cons {op : TxnOp} {ops : List TxnOp}
    (h : Holds data i ((op :: ops).flatMap TxnOp.words) post) :
    Holds data i op.words (txnBytes (ops.flatMap TxnOp.words) ++ post) := by
  refine ⟨h.1, ?_⟩
  rw [h.2, List.flatMap_cons, txnBytes_append, List.append_assoc]

/-- **The loop over a list of instructions.** -/
theorem parseLoop_words (ops : List TxnOp) (done : List TransactionBinaryOperation)
    (hfit : ∀ op ∈ ops, op.Fits) (hsize : 4 * (ops.flatMap TxnOp.words).length < 2 ^ 32)
    (h : Holds data i (ops.flatMap TxnOp.words) []) (fuel : ℕ) (hfuel : ops.length < fuel) :
    (parseLoop R .v0_1).run fuel ⟨i, done⟩ =
      some (.ok ⟨data.length, done ++ ops.map TxnOp.parsed⟩) := by
  induction ops generalizing i done fuel with
  | nil =>
    have hi : i = data.length := by
      have hend : data.length ≤ i := List.drop_eq_nil_iff.1 (by simpa [txnBytes] using h.2)
      exact Nat.le_antisymm h.1 hend
    obtain ⟨fuel, rfl⟩ := Nat.exists_eq_succ_of_ne_zero (by omega : fuel ≠ 0)
    rw [hi, Loop.run_exit (by simp [parseLoop])]
    simp
  | cons op ops ih =>
    obtain ⟨fuel, rfl⟩ := Nat.exists_eq_succ_of_ne_zero (by omega : fuel ≠ 0)
    simp only [List.flatMap_cons, List.length_append] at hsize
    have hop := h.cons
    have hroom := hop.room
    have hpos : 0 < op.words.length := by cases op <;> exact Nat.succ_pos _
    have hstep : (parseLoop R .v0_1).Steps ⟨i, done⟩
        ⟨i + 4 * op.words.length, done ++ [op.parsed]⟩ :=
      parseLoop_steps.2 ⟨by simp only; omega, op.parsed,
        parseOp_words R (hfit op (by simp)) (by omega) hop, rfl⟩
    have hrest : Holds data (i + 4 * op.words.length) (ops.flatMap TxnOp.words) [] := by
      refine ⟨hroom, ?_⟩
      rw [hop.skip.2]
      simp [txnBytes]
    rw [Loop.run_step hstep, ih _ (fun o ho => hfit o (by simp [ho])) (by omega) hrest fuel
      (by simpa using hfuel)]
    simp

/-- The header of an encoded transaction. -/
theorem header_bytes (info : TxnDeviceInfo) :
    let version : Word := (info.numRows.setWidth 32 <<< 24) ||| (info.devGen.setWidth 32 <<< 16) |||
      (info.minor.setWidth 32 <<< 8) ||| info.major.setWidth 32
    let shape : Word := (info.numMemTileRows.setWidth 32 <<< 8) ||| info.numCols.setWidth 32
    version.extractLsb' 0 8 = info.major ∧ version.extractLsb' 8 8 = info.minor ∧
      shape.extractLsb' 0 8 = info.numCols := by
  refine ⟨?_, ?_, ?_⟩ <;> ext k hk <;> interval_cases k <;> simp

end Binary

theorem payloadWords_txnBytes (ws : List Word) : payloadWords (txnBytes ws) = ws := by
  induction ws with
  | nil => rfl
  | cons w ws ih =>
    have hw := wordAt_zero w ws []
    rw [List.append_nil] at hw
    exact congrArg₂ List.cons hw ih

/-- **Parsing undoes encoding.** The bytes of an encoded transaction, under any reader of them,
parse to the operations of its instructions, in order and every field in its place, with the cursor
at the end of the last byte; the payload of a block write has the words it was built from. -/
theorem parseTransactionBinary_txnBuild (info : TxnDeviceInfo) (ops : List TxnOp)
    (hversion : info.major = 0 ∧ info.minor = 1) (hfit : ∀ op ∈ ops, op.Fits)
    (hsize : (txnBytes (txnBuild info ops)).length < 2 ^ 32)
    (R : Reader (txnBytes (txnBuild info ops))) (fuel : ℕ) (hfuel : ops.length < fuel) :
    parseTransactionBinary R fuel = some (.ok
      { numCols := info.numCols.toNat
        ops := ops.map TxnOp.parsed
        cursor := (txnBytes (txnBuild info ops)).length }) ∧
    ∀ addr ws col row, .blockwrite addr ws col row ∈ ops →
      payloadWords (TxnOp.blockwrite addr ws col row).parsed.cmd.payload = ws := by
  refine ⟨?_, fun addr ws col row _ => payloadWords_txnBytes ws⟩
  obtain ⟨opCount, size, hbuild⟩ := txnBuild_eq info ops
  generalize hdata : txnBytes (txnBuild info ops) = data at *
  rw [hbuild, txnBytes_append] at hdata
  obtain ⟨hmajor, hminor, hcols⟩ := header_bytes info
  have h₀ : byteAt data 0 = 0 := by
    rw [← hdata]
    exact hmajor.trans hversion.1
  have h₁ : byteAt data 1 = 1 := by
    rw [← hdata]
    exact hminor.trans hversion.2
  have h₄ : byteAt data 4 = info.numCols := by
    rw [← hdata]
    exact hcols
  have hlen : data.length = 16 + 4 * (ops.flatMap TxnOp.words).length := by
    rw [← hdata, List.length_append, txnBytes_length, txnBytes_length]
    rfl
  have hholds : Holds data kTxnHeaderBytes (ops.flatMap TxnOp.words) [] := by
    refine ⟨by simp only [kTxnHeaderBytes]; omega, ?_⟩
    rw [← hdata, List.append_nil]
    rfl
  have hv : txnVersion data = .ok .v0_1 := if_pos ⟨h₀, h₁⟩
  rw [parseTransactionBinary_eq R (by simp only [kTxnHeaderBytes]; omega) hv,
    parseLoop_words R ops [] hfit (by omega) hholds fuel hfuel, h₄]
  simp [Except.map]

def sampleOps : List TxnOp :=
  [.write32 0x1D004 0xFFFFFFFF, .maskwrite32 0x32000 1 3, .blockwrite 0x1D000 [1, 2, 3, 4, 5] 1 0,
    .sync 2 0 1 0 1 1, .addressPatch 0x1D004 3 0x180000000, .loadpdi 7 64 0x100000010, .preempt 2]

theorem parse_sampleOps :
    parseTransactionBinary (.checked (txnBytes (txnBuild {} sampleOps))) 8 = some (.ok
      { numCols := 5, ops := sampleOps.map TxnOp.parsed, cursor := 188 }) := by
  have hlen : (txnBytes (txnBuild {} sampleOps)).length = 188 := by
    rw [txnBytes_length]
    rfl
  have h := parseTransactionBinary_txnBuild {} sampleOps ⟨rfl, rfl⟩
    (by unfold sampleOps; simp [TxnOp.Fits]) (by rw [hlen]; decide) (.checked _) 8 (by decide)
  rw [hlen] at h
  exact h.1

end MlirAie.Txn
