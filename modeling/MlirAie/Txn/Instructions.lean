import MlirAie.Lib.Lists
import MlirAie.Lib.While

/-!
# Splitting an instruction stream

A stream of 32-bit words is split into its header and its operations, each as long as its opcode or
a size field of its own says.

* `Op`, `DecodeError`: what is decoded, and why not;
* **`decodeOp`**: the operation at a word and how far the cursor moves; **`decode`**: the loop;
* **`decode_exact_iff`**: the loop ends with an error or with operations that are the words of the
  stream exactly if it meets no such operation.
-/

namespace MlirAie.TxnTrace

open Lib

abbrev Word := BitVec 32

/-- The opcodes, from `TxnEncoding.h`. -/
inductive Opcode
  | WRITE | BLOCKWRITE | MASKWRITE | MASKPOLL | PREEMPT | LOADPDI | CREATE_SCRATCHPAD | UPDATE_REG
  | TCT | DDR_PATCH
deriving DecidableEq

def Opcode.code : Opcode → Word
  | WRITE => 0
  | BLOCKWRITE => 1
  | MASKWRITE => 3
  | MASKPOLL => 4
  | PREEMPT => 6
  | LOADPDI => 8
  | CREATE_SCRATCHPAD => 10
  | UPDATE_REG => 12
  | TCT => 1 <<< 7
  | DDR_PATCH => (1 <<< 7) + 1

def opcodes : List Opcode :=
  [.WRITE, .MASKWRITE, .MASKPOLL, .BLOCKWRITE, .TCT, .DDR_PATCH, .LOADPDI, .PREEMPT,
    .CREATE_SCRATCHPAD, .UPDATE_REG]

/-- The opcode of a word, by its low byte. -/
def Opcode.of (opc : Word) : Option Opcode := opcodes.find? fun o => o.code = opc &&& 0xFF

structure Header where
  major : Word
  minor : Word
  devGen : Word
  numRows : Word
  numCols : Word
  numMemTileRows : Word
  numOps : Word
  /-- In bytes, with the header. -/
  size : Word
deriving DecidableEq

def Header.of : List Word → Option Header
  | w0 :: w1 :: numOps :: size :: _ => some
    { major := w0 &&& 0xFF, minor := w0 >>> 8 &&& 0xFF, devGen := w0 >>> 16 &&& 0xFF,
      numRows := w0 >>> 24, numCols := w1 &&& 0xFF, numMemTileRows := w1 >>> 8 &&& 0xFF,
      numOps, size }
  | _ => none

inductive Kind
  | header | write32 | maskwrite32 | maskpoll32 | blockwrite | tct | patch | loadpdi | preempt
  | scratchpad | updateReg
deriving DecidableEq

/-- A decoded instruction; the convenience fields are 0 when not applicable. -/
structure Op where
  kind : Kind
  pos : ℕ
  words : List Word
  addr : Word := 0
  value : Word := 0
  mask : Word := 0
  data : List ℕ := []
deriving DecidableEq

inductive DecodeError
  | shortStream
  | headerSize (given actual : ℕ)
  | shortBlockwrite (pos : ℕ)
  | unknownOpcode (opc : Word) (pos : ℕ)
  | indexError (i : ℕ)
  | pastStream (pos : ℕ)
  | headerOps (given actual : ℕ)
deriving DecidableEq

variable (w : List Word)

/-! ## One operation -/

/-- `w[i]`. -/
def word (i : ℕ) : Except DecodeError Word := w[i]?.elim (.error (.indexError i)) .ok

/-- `w[pos : pos + n]`, cut off at the end of the stream. -/
def slice (pos n : ℕ) : List Word := (w.drop pos).take n

def decodeWrite (pos : ℕ) : Except DecodeError (Op × ℕ) :=
  (word w (pos + 2)).bind fun addr => (word w (pos + 4)).bind fun value =>
    .ok ({ kind := .write32, pos, words := slice w pos 6, addr, value }, 6)

def decodeMasked (kind : Kind) (pos : ℕ) : Except DecodeError (Op × ℕ) :=
  (word w (pos + 2)).bind fun addr => (word w (pos + 4)).bind fun value =>
    (word w (pos + 5)).bind fun mask =>
      .ok ({ kind, pos, words := slice w pos 7, addr, value, mask }, 7)

/-- The size is checked before the cursor moves by it. -/
def decodeBlockwrite (pos : ℕ) : Except DecodeError (Op × ℕ) :=
  (word w (pos + 3)).bind fun size =>
    let total := size.toNat / 4
    if total < 4 then .error (.shortBlockwrite pos)
    else (word w (pos + 2)).bind fun addr =>
      .ok ({ kind := .blockwrite, pos, words := slice w pos total, addr,
             data := (slice w (pos + 4) (total - 4)).map BitVec.toNat }, total)

def decodeTct (pos : ℕ) : Except DecodeError (Op × ℕ) :=
  (word w (pos + 1)).bind fun size =>
    let total := size.toNat / 4
    .ok ({ kind := .tct, pos, words := slice w pos total }, total)

def decodePatch (pos : ℕ) : Except DecodeError (Op × ℕ) :=
  (word w (pos + 1)).bind fun size =>
    let total := size.toNat / 4
    (word w (pos + 10)).bind fun low => (word w (pos + 11)).bind fun high =>
      (word w (pos + 6)).bind fun addr => (word w (pos + 8)).bind fun arg =>
        .ok ({ kind := .patch, pos, words := slice w pos total, addr,
               data := [arg.toNat, low.toNat ||| high.toNat <<< 32] }, total)

def decodeLoadpdi (pos : ℕ) : Except DecodeError (Op × ℕ) :=
  .ok ({ kind := .loadpdi, pos, words := slice w pos 4 }, 4)

def decodePreempt (opc : Word) (pos : ℕ) : Except DecodeError (Op × ℕ) :=
  .ok ({ kind := .preempt, pos, words := [opc], value := opc >>> 8 }, 1)

/-- Words 2 and 3 are the address that the runtime patches in. -/
def decodeScratchpad (opc : Word) (pos : ℕ) : Except DecodeError (Op × ℕ) :=
  (word w (pos + 1)).bind fun value =>
    .ok ({ kind := .scratchpad, pos, words := slice w pos 4, value,
           data := [(opc >>> 8 &&& 0xFF).toNat] }, 4)

def decodeUpdateReg (opc : Word) (pos : ℕ) : Except DecodeError (Op × ℕ) :=
  (word w (pos + 2)).bind fun addr => (word w (pos + 1)).bind fun value =>
    .ok ({ kind := .updateReg, pos, words := slice w pos 3, addr, value,
           data := [(opc >>> 8 &&& 0xFF).toNat, (opc >>> 16 &&& 0xFF).toNat] }, 3)

def decodeAs (opc : Word) (pos : ℕ) : Opcode → Except DecodeError (Op × ℕ)
  | .WRITE => decodeWrite w pos
  | .MASKWRITE => decodeMasked w .maskwrite32 pos
  | .MASKPOLL => decodeMasked w .maskpoll32 pos
  | .BLOCKWRITE => decodeBlockwrite w pos
  | .TCT => decodeTct w pos
  | .DDR_PATCH => decodePatch w pos
  | .LOADPDI => decodeLoadpdi w pos
  | .PREEMPT => decodePreempt opc pos
  | .CREATE_SCRATCHPAD => decodeScratchpad w opc pos
  | .UPDATE_REG => decodeUpdateReg w opc pos

/-- **The operation at a word**, and how far the cursor moves. -/
def decodeOp (pos : ℕ) : Except DecodeError (Op × ℕ) :=
  (word w pos).bind fun opc =>
    (Opcode.of opc).elim (.error (.unknownOpcode opc pos)) (decodeAs w opc pos)

/-! ## The loop -/

structure DecodeState where
  pos : ℕ
  ops : List Op

def decodeLoop : Loop DecodeState DecodeError where
  guard s := s.pos < w.length
  body s := (decodeOp w s.pos).bind fun r => .ok ⟨s.pos + r.2, s.ops ++ [r.1]⟩

def start : DecodeState := ⟨4, [{ kind := .header, pos := 0, words := w.take 4 }]⟩

/-- The checks behind the loop. -/
def finish (header : Header) (s : DecodeState) : Except DecodeError (List Op) :=
  if s.pos ≠ w.length then .error (.pastStream ((s.ops.getLast?.map Op.pos).getD 0))
  else if header.numOps.toNat ≠ s.ops.length - 1 then
    .error (.headerOps header.numOps.toNat (s.ops.length - 1))
  else .ok s.ops

/-- **`decode`**; `none` is out of fuel. -/
def decode (fuel : ℕ) : Option (Except DecodeError (List Op)) :=
  match Header.of w with
  | none => some (.error .shortStream)
  | some header =>
    if header.size.toNat ≠ 4 * w.length then
      some (.error (.headerSize header.size.toNat (4 * w.length)))
    else ((decodeLoop w).run fuel (start w)).map fun r => r.bind (finish w header)

/-! ## What it should do -/

/-- **Decoding ends with an error or with operations whose words are those of the stream.** -/
def Exact : Prop :=
  ∃ fuel r, decode w fuel = some r ∧ ∀ ops, r = .ok ops → ops.flatMap Op.words = w

inductive OpStart : ℕ → Prop
  | first {header : Header} (hheader : Header.of w = some header)
      (hsize : header.size.toNat = 4 * w.length) : OpStart 4
  | next {pos n : ℕ} {op : Op} (h : OpStart pos) (hop : decodeOp w pos = .ok (op, n)) :
      OpStart (pos + n)

/-- A sync, or a patch that is all there, with a size of less than a word. -/
def Stalled (pos : ℕ) : Prop :=
  ∃ opc size, w[pos]? = some opc ∧ w[pos + 1]? = some size ∧ size.toNat < 4 ∧
    (opc &&& 0xFF = Opcode.TCT.code ∨
      opc &&& 0xFF = Opcode.DDR_PATCH.code ∧ pos + 11 < w.length)

variable {w}

/-! ## Operations and their words -/

theorem word_eq_ok {i : ℕ} {x : Word} : word w i = .ok x ↔ w[i]? = some x := by
  unfold word
  cases w[i]? with
  | none => simp
  | some y => simp

theorem word_bind_eq_ok {α : Type} {i : ℕ} {f : Word → Except DecodeError α} {a : α} :
    (word w i).bind f = .ok a ↔ ∃ x, w[i]? = some x ∧ f x = .ok a := by
  rw [bind_eq_ok]
  simp only [word_eq_ok]

theorem Opcode.of_eq_some {opc : Word} {o : Opcode} :
    Opcode.of opc = some o ↔ opc &&& 0xFF = o.code := by
  constructor
  · intro h
    unfold Opcode.of at h
    have hcode := List.find?_some h
    exact (of_decide_eq_true hcode).symm
  · intro h
    rw [Opcode.of, h]
    cases o <;> decide

theorem decodeOp_eq_ok {pos : ℕ} {r : Op × ℕ} : decodeOp w pos = .ok r ↔
    ∃ opc o, w[pos]? = some opc ∧ opc &&& 0xFF = o.code ∧ decodeAs w opc pos o = .ok r := by
  simp only [← Opcode.of_eq_some]
  unfold decodeOp
  rw [word_bind_eq_ok]
  refine exists_congr fun opc => ?_
  cases Opcode.of opc with
  | none => simp
  | some o => simp

theorem decodeMasked_words {kind : Kind} {pos n : ℕ} {op : Op}
    (h : decodeMasked w kind pos = .ok (op, n)) : op.words = slice w pos n ∧ n ≠ 0 := by
  obtain ⟨addr, -, h⟩ := word_bind_eq_ok.1 h
  obtain ⟨value, -, h⟩ := word_bind_eq_ok.1 h
  obtain ⟨mask, -, h⟩ := word_bind_eq_ok.1 h
  cases h
  exact ⟨rfl, by decide⟩

/-- **An operation's words are those the cursor passes**, and only a sync or a patch may be of
size zero. -/
theorem decodeAs_words {opc : Word} {pos n : ℕ} {op : Op} (hopc : w[pos]? = some opc) {o : Opcode}
    (h : decodeAs w opc pos o = .ok (op, n)) :
    op.words = slice w pos n ∧ (n = 0 → ∃ size, w[pos + 1]? = some size ∧ size.toNat < 4 ∧
      (o = .TCT ∨ o = .DDR_PATCH ∧ pos + 11 < w.length)) := by
  cases o with
  | WRITE =>
    obtain ⟨addr, -, h⟩ := word_bind_eq_ok.1 h
    obtain ⟨value, -, h⟩ := word_bind_eq_ok.1 h
    cases h
    exact ⟨rfl, fun hn => absurd hn (by decide)⟩
  | MASKWRITE => exact (decodeMasked_words h).imp id fun hne hn => absurd hn hne
  | MASKPOLL => exact (decodeMasked_words h).imp id fun hne hn => absurd hn hne
  | BLOCKWRITE =>
    obtain ⟨size, -, h⟩ := word_bind_eq_ok.1 h
    simp only at h
    split_ifs at h with hleast
    obtain ⟨addr, -, h⟩ := word_bind_eq_ok.1 h
    cases h
    exact ⟨rfl, fun hn => absurd hn (by omega)⟩
  | TCT =>
    obtain ⟨size, hsize, h⟩ := word_bind_eq_ok.1 h
    cases h
    exact ⟨rfl, fun hn => ⟨size, hsize, by omega, Or.inl rfl⟩⟩
  | DDR_PATCH =>
    obtain ⟨size, hsize, h⟩ := word_bind_eq_ok.1 h
    obtain ⟨low, -, h⟩ := word_bind_eq_ok.1 h
    obtain ⟨high, hhigh, h⟩ := word_bind_eq_ok.1 h
    obtain ⟨addr, -, h⟩ := word_bind_eq_ok.1 h
    obtain ⟨arg, -, h⟩ := word_bind_eq_ok.1 h
    cases h
    exact ⟨rfl, fun hn => ⟨size, hsize, by omega,
      Or.inr ⟨rfl, (List.getElem?_eq_some_iff.1 hhigh).1⟩⟩⟩
  | LOADPDI =>
    cases h
    exact ⟨rfl, fun hn => absurd hn (by decide)⟩
  | PREEMPT =>
    cases h
    obtain ⟨hlt, rfl⟩ := List.getElem?_eq_some_iff.1 hopc
    refine ⟨?_, fun hn => absurd hn (by decide)⟩
    rw [slice, List.drop_eq_getElem_cons hlt]
    rfl
  | CREATE_SCRATCHPAD =>
    obtain ⟨value, -, h⟩ := word_bind_eq_ok.1 h
    cases h
    exact ⟨rfl, fun hn => absurd hn (by decide)⟩
  | UPDATE_REG =>
    obtain ⟨addr, -, h⟩ := word_bind_eq_ok.1 h
    obtain ⟨value, -, h⟩ := word_bind_eq_ok.1 h
    cases h
    exact ⟨rfl, fun hn => absurd hn (by decide)⟩

theorem decodeOp_words {pos n : ℕ} {op : Op} (h : decodeOp w pos = .ok (op, n)) :
    op.words = slice w pos n := by
  obtain ⟨opc, o, hopc, -, h⟩ := decodeOp_eq_ok.1 h
  exact (decodeAs_words hopc h).1

theorem lt_of_decodeOp {pos : ℕ} {r : Op × ℕ} (h : decodeOp w pos = .ok r) : pos < w.length := by
  obtain ⟨opc, o, hopc, -⟩ := decodeOp_eq_ok.1 h
  exact (List.getElem?_eq_some_iff.1 hopc).1

theorem stalled_of_decodeOp {pos : ℕ} {op : Op} (h : decodeOp w pos = .ok (op, 0)) :
    Stalled w pos := by
  obtain ⟨opc, o, hopc, hcode, h⟩ := decodeOp_eq_ok.1 h
  obtain ⟨size, hsize, hlt, ho⟩ := (decodeAs_words hopc h).2 rfl
  refine ⟨opc, size, hopc, hsize, hlt, ?_⟩
  rcases ho with rfl | ⟨rfl, hlen⟩
  · exact Or.inl hcode
  · exact Or.inr ⟨hcode, hlen⟩

/-- **An operation that leaves the cursor where it is.** -/
theorem Stalled.decodeOp_eq {pos : ℕ} (h : Stalled w pos) :
    ∃ op, decodeOp w pos = .ok (op, 0) := by
  obtain ⟨opc, size, hopc, hsize, hlt, hcode⟩ := h
  have hzero : size.toNat / 4 = 0 := Nat.div_eq_of_lt hlt
  rcases hcode with hcode | ⟨hcode, hlen⟩
  · refine ⟨{ kind := .tct, pos, words := slice w pos 0 },
      decodeOp_eq_ok.2 ⟨opc, .TCT, hopc, hcode, word_bind_eq_ok.2 ⟨size, hsize, ?_⟩⟩⟩
    simp only [hzero]
  · have hget : ∀ k ≤ 11, ∃ x, w[pos + k]? = some x := fun k hk =>
      ⟨_, List.getElem?_eq_getElem (by omega)⟩
    obtain ⟨low, hlow⟩ := hget 10 (by decide)
    obtain ⟨high, hhigh⟩ := hget 11 (by decide)
    obtain ⟨addr, haddr⟩ := hget 6 (by decide)
    obtain ⟨arg, harg⟩ := hget 8 (by decide)
    refine ⟨{ kind := .patch, pos, words := slice w pos 0, addr,
              data := [arg.toNat, low.toNat ||| high.toNat <<< 32] },
      decodeOp_eq_ok.2 ⟨opc, .DDR_PATCH, hopc, hcode, word_bind_eq_ok.2 ⟨size, hsize, ?_⟩⟩⟩
    simp only [hzero]
    exact word_bind_eq_ok.2 ⟨low, hlow, word_bind_eq_ok.2 ⟨high, hhigh,
      word_bind_eq_ok.2 ⟨addr, haddr, word_bind_eq_ok.2 ⟨arg, harg, rfl⟩⟩⟩⟩

/-! ## Runs -/

theorem decodeLoop_steps {s t : DecodeState} : (decodeLoop w).Steps s t ↔
    ∃ op n, decodeOp w s.pos = .ok (op, n) ∧ t = ⟨s.pos + n, s.ops ++ [op]⟩ := by
  constructor
  · rintro ⟨-, hbody⟩
    obtain ⟨⟨op, n⟩, hop, ht⟩ := bind_eq_ok.1 hbody
    exact ⟨op, n, hop, (Except.ok.inj ht).symm⟩
  · rintro ⟨op, n, hop, rfl⟩
    exact ⟨decide_eq_true (lt_of_decodeOp hop), bind_eq_ok.2 ⟨(op, n), hop, rfl⟩⟩

theorem opStart_of_reaches {header : Header} (hheader : Header.of w = some header)
    (hsize : header.size.toNat = 4 * w.length) {s : DecodeState}
    (h : (decodeLoop w).Reaches (start w) s) : OpStart w s.pos := by
  induction h with
  | refl => exact .first hheader hsize
  | tail _ hstep ih =>
    obtain ⟨op, n, hop, rfl⟩ := decodeLoop_steps.1 hstep
    exact .next ih hop

theorem OpStart.reaches {pos : ℕ} (h : OpStart w pos) :
    ∃ ops, (decodeLoop w).Reaches (start w) ⟨pos, ops⟩ := by
  induction h with
  | first => exact ⟨_, .refl⟩
  | next _ hop ih =>
    obtain ⟨ops, hreach⟩ := ih
    exact ⟨_, hreach.tail (decodeLoop_steps.2 ⟨_, _, hop, rfl⟩)⟩

theorem OpStart.header {pos : ℕ} (h : OpStart w pos) :
    ∃ header, Header.of w = some header ∧ header.size.toNat = 4 * w.length := by
  induction h with
  | first hheader hsize => exact ⟨_, hheader, hsize⟩
  | next _ _ ih => exact ih

theorem decode_eq {header : Header} (hheader : Header.of w = some header)
    (hsize : header.size.toNat = 4 * w.length) (fuel : ℕ) :
    decode w fuel =
      ((decodeLoop w).run fuel (start w)).map fun r => r.bind (finish w header) := by
  unfold decode
  rw [hheader]
  simp only [hsize, ne_eq, not_true_eq_false, if_false]

/-- **At an operation that does not move the cursor the loop stays forever.** -/
theorem decode_eq_none {pos : ℕ} (h : OpStart w pos) (hstalled : Stalled w pos) (fuel : ℕ) :
    decode w fuel = none := by
  obtain ⟨header, hheader, hsize⟩ := h.header
  obtain ⟨ops, hreach⟩ := h.reaches
  obtain ⟨op, hop⟩ := hstalled.decodeOp_eq
  have hstay : ∀ s : DecodeState, s.pos = pos →
      ∃ t, (decodeLoop w).Steps s t ∧ t.pos = pos := by
    intro s hs
    exact ⟨⟨s.pos + 0, s.ops ++ [op]⟩, decodeLoop_steps.2 ⟨op, 0, hs ▸ hop, rfl⟩, hs⟩
  rw [decode_eq hheader hsize, Loop.diverges hstay hreach rfl]
  rfl

/-- The operations so far are the words that the cursor has passed. -/
def Passed (w : List Word) (s : DecodeState) : Prop := s.ops.flatMap Op.words = w.take s.pos

theorem Passed.step {s t : DecodeState} (h : Passed w s) (hstep : (decodeLoop w).Steps s t) :
    Passed w t := by
  obtain ⟨op, n, hop, rfl⟩ := decodeLoop_steps.1 hstep
  show (s.ops ++ [op]).flatMap Op.words = w.take (s.pos + n)
  rw [List.flatMap_append, h, List.flatMap_singleton, decodeOp_words hop, slice, List.take_add]

theorem passed_start : Passed w (start w) := List.append_nil _

theorem finish_eq_ok {header : Header} {s : DecodeState} {ops : List Op} (hs : Passed w s)
    (h : finish w header s = .ok ops) : ops.flatMap Op.words = w := by
  unfold finish at h
  split_ifs at h with hpos hops
  cases h
  rw [hs, not_ne_iff.1 hpos, List.take_length]

/-- **Decoding is total and exact, but for operations that do not move the cursor**: a sync or a
patch whose size field is below a word. -/
theorem decode_exact_iff (w : List Word) : Exact w ↔ ∀ pos, OpStart w pos → ¬Stalled w pos := by
  constructor
  · rintro ⟨fuel, r, hr, -⟩ pos hstart hstalled
    rw [decode_eq_none hstart hstalled fuel] at hr
    cases hr
  · intro h
    cases hheader : Header.of w with
    | none =>
      refine ⟨0, .error .shortStream, ?_, fun ops hops => by cases hops⟩
      unfold decode
      rw [hheader]
    | some header =>
      by_cases hsize : header.size.toNat = 4 * w.length
      · have hdec : ∀ s t, (decodeLoop w).Reaches (start w) s → (decodeLoop w).Steps s t →
            w.length - t.pos < w.length - s.pos := by
          intro s t hs hst
          obtain ⟨op, n, hop, rfl⟩ := decodeLoop_steps.1 hst
          have hlt := lt_of_decodeOp hop
          have hpos : n ≠ 0 := by
            rintro rfl
            exact h s.pos (opStart_of_reaches hheader hsize hs) (stalled_of_decodeOp hop)
          simp only
          omega
        obtain ⟨r, hr⟩ := Loop.halts_of_measure (fun s : DecodeState => w.length - s.pos) hdec
        refine ⟨w.length - 4 + 1, r.bind (finish w header), ?_, ?_⟩
        · rw [decode_eq hheader hsize]
          exact congrArg _ hr
        · refine @Loop.run_result _ _ (decodeLoop w) (Passed w)
            (fun r => ∀ ops, r.bind (finish w header) = .ok ops → ops.flatMap Op.words = w)
            ?_ ?_ (fun s t hs hst => hs.step hst) _ _ _ passed_start hr
          · exact fun s hs _ ops hops => finish_eq_ok hs hops
          · exact fun s e _ _ ops hops => by cases hops
      · refine ⟨0, .error (.headerSize header.size.toNat (4 * w.length)), ?_,
          fun ops hops => by cases hops⟩
        unfold decode
        rw [hheader]
        simp only [ne_eq, hsize, not_false_eq_true, if_true]

/-- A header that says 24 bytes and one operation, and a sync of size zero. -/
def emptySync : List Word := [0, 0, 1, 24, 0x80, 0]

/-- **An empty sync is decoded again and again.** -/
theorem emptySync_not_exact : ¬Exact emptySync := by
  rintro ⟨fuel, r, hr, -⟩
  have hstart : OpStart emptySync 4 := @OpStart.first emptySync _ rfl rfl
  have hstalled : Stalled emptySync 4 := ⟨0x80, 0, rfl, rfl, by decide, Or.inl rfl⟩
  rw [decode_eq_none hstart hstalled fuel] at hr
  cases hr

end MlirAie.TxnTrace
