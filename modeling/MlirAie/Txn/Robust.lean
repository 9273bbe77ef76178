import MlirAie.Txn.Frame

/-!
# Malformed transaction binaries

What the parser does on an arbitrary byte vector: when its loop ends, and when every read of it is
inside the vector. Each holds but for one kind of operation, standing at an operation boundary.

* `ZeroSized`: a v0.1 write or mask write that is all there and declares size zero;
* **`parseTransactionBinary_halts_iff`**: the loop ends, and every iteration moves the cursor,
  exactly when no boundary holds one;
* **`parseTransactionBinary_inBounds_iff`**: no read is past the end exactly when no boundary holds
  one.
-/

namespace MlirAie.Txn

open MlirAie.Lib

variable {data : List Byte}

/-! ## Termination -/

/-- The reads of a memory that holds `data`, and `beyond` past its end. -/
def Reader.memory (data : List Byte) (beyond : ℕ → Word) : Reader data where
  read32 o := .ok (if o + 4 ≤ data.length then wordAt data o else beyond o)
  inRange _ h := by rw [if_pos h]

/-- A v0.1 write or mask write whose bytes are all there and whose size field is zero. -/
def ZeroSized (version : TxnVersion) (data : List Byte) (i : ℕ) : Prop :=
  version = .v0_1 ∧
    (byteAt data i = TxnOpcode.WRITE.code ∧ i + 24 ≤ data.length ∧ wordAt data (i + 20) = 0 ∨
      byteAt data i = TxnOpcode.MASKWRITE.code ∧ i + 28 ≤ data.length ∧ wordAt data (i + 24) = 0)

def NoZeroSized (data : List Byte) : Prop :=
  ∀ version i, txnVersion data = .ok version → OpBoundary version data i →
    ¬ZeroSized version data i

/-- A complete operation of length zero is a zero-sized write or mask write of v0.1: every other
header has a least size. -/
theorem opLength_eq_zero_iff {version : TxnVersion} {i : ℕ} :
    opLength version data i = some 0 ↔ ZeroSized version data i := by
  unfold opLength ZeroSized
  cases hopc : convertOpcode (byteAt data i) with
  | error e =>
    simp only [reduceCtorEq, false_iff]
    rintro ⟨-, ⟨hb, -⟩ | ⟨hb, -⟩⟩ <;> rw [hb, convertOpcode_code] at hopc <;> cases hopc
  | ok opc =>
    simp only [Option.ite_none_right_eq_some, Option.some.injEq, code_of_convertOpcode hopc]
    cases version <;> cases opc <;>
      simp [opHeader, OpHeader.Complete, OpHeader.declared, TxnOpcode.code, ← BitVec.toNat_inj] <;>
      omega

/-- Every completed iteration of the parse moves the cursor forward. -/
def Advances (R : Reader data) : Prop :=
  ∀ version, txnVersion data = .ok version → ∀ i op j, CursorAt R version i → i < data.length →
    parseOp R i version = .ok (op, j) → i < j

/-- The parse ends. -/
def Halts (R : Reader data) : Prop := ∃ fuel r, parseTransactionBinary R fuel = some r

theorem ZeroSized.room {version : TxnVersion} {i : ℕ} (h : ZeroSized version data i) :
    i + 24 ≤ data.length := by
  obtain ⟨-, ⟨-, h, -⟩ | ⟨-, h, -⟩⟩ := h <;> omega

theorem ZeroSized.lt {version : TxnVersion} {i : ℕ} (h : ZeroSized version data i) :
    i < data.length := by
  have := h.room
  omega

theorem advances_of_noZeroSized (R : Reader data) (h : NoZeroSized data) : Advances R := by
  intro version hv i op j hi _ hp
  obtain ⟨n, hn, rfl⟩ := parseOp_ok R i hp
  have hpos : n ≠ 0 := by
    rintro rfl
    exact h version i hv hi.boundary (opLength_eq_zero_iff.1 hn)
  omega

/-- A header the parser accepts, or an immediate rejection. -/
theorem header_cases (data : List Byte) :
    (data.length < kTxnHeaderBytes ∨ ∃ e, txnVersion data = .error e) ∨
      kTxnHeaderBytes ≤ data.length ∧ ∃ version, txnVersion data = .ok version := by
  by_cases hlen : data.length < kTxnHeaderBytes
  · exact .inl (.inl hlen)
  · cases hv : txnVersion data with
    | error e => exact .inl (.inr ⟨e, rfl⟩)
    | ok version => exact .inr ⟨by omega, version, rfl⟩

theorem halts_of_advances (R : Reader data) (h : Advances R) : Halts R := by
  rcases header_cases data with hrej | ⟨hlen, version, hv⟩
  · obtain ⟨m, hm⟩ := parseTransactionBinary_rejects R hrej
    exact ⟨0, _, hm 0⟩
  · have hdec (s t : ParseState) (hs : (parseLoop R version).Reaches ⟨kTxnHeaderBytes, []⟩ s)
        (hst : (parseLoop R version).Steps s t) : data.length - t.i < data.length - s.i := by
      obtain ⟨hlt, op, hp, -⟩ := parseLoop_steps.1 hst
      have := h version hv s.i op t.i ⟨s.ops, hs⟩ hlt hp
      omega
    obtain ⟨r, hr⟩ := Loop.halts_of_measure _ hdec
    exact ⟨_, _, by rw [parseTransactionBinary_eq R hlen hv, hr]; rfl⟩

theorem not_halts_of_stuck {R : Reader data} {version : TxnVersion} {i : ℕ}
    {op : TransactionBinaryOperation} (hlen : kTxnHeaderBytes ≤ data.length)
    (hv : txnVersion data = .ok version) (hi : CursorAt R version i) (hlt : i < data.length)
    (hp : parseOp R i version = .ok (op, i)) : ¬Halts R := by
  rintro ⟨fuel, r, hr⟩
  obtain ⟨ops, hreach⟩ := hi
  have hstay (s : ParseState) (hs : s.i = i) :
      ∃ t, (parseLoop R version).Steps s t ∧ t.i = i :=
    ⟨⟨i, s.ops ++ [op]⟩, parseLoop_steps.2 ⟨by omega, op, by rw [hs, hp], rfl⟩, rfl⟩
  rw [parseTransactionBinary_eq R hlen hv, Loop.diverges hstay hreach rfl] at hr
  cases hr

theorem OpBoundary.cursorAt_memory {version : TxnVersion} {i : ℕ} (beyond : ℕ → Word)
    (h : OpBoundary version data i) : CursorAt (.memory data beyond) version i := by
  rcases h.cursorAt with hc | ⟨j, o, e, -, -, -, he, -⟩
  · exact hc
  · cases he

theorem parseOp_zeroSized {version : TxnVersion} {i : ℕ} (beyond : ℕ → Word)
    (hz : ZeroSized version data i) :
    ∃ op, parseOp (.memory data beyond) i version = .ok (op, i) := by
  rcases parseOp_of_length (.memory data beyond) i (opLength_eq_zero_iff.2 hz) with
    hp | ⟨o, e, -, he, -⟩
  · exact hp
  · cases he

/-- **When the parser terminates.** Whatever lies past the end of the vector, the parse ends exactly
when no operation boundary of the binary holds a zero-sized write or mask write, and then every
iteration moves the cursor. -/
theorem parseTransactionBinary_halts_iff (data : List Byte) (beyond : ℕ → Word) :
    (Halts (.memory data beyond) ↔ NoZeroSized data) ∧
      (Advances (.memory data beyond) ↔ NoZeroSized data) := by
  have hadv := advances_of_noZeroSized (.memory data beyond)
  refine ⟨⟨fun h version i hv hi hz => ?_, fun h => halts_of_advances _ (hadv h)⟩,
    ⟨fun h version i hv hi hz => ?_, hadv⟩⟩
  · obtain ⟨op, hp⟩ := parseOp_zeroSized beyond hz
    have hlen : kTxnHeaderBytes ≤ data.length := by
      have := hz.room
      simp only [kTxnHeaderBytes]
      omega
    exact not_halts_of_stuck hlen hv (hi.cursorAt_memory beyond) hz.lt hp h
  · obtain ⟨op, hp⟩ := parseOp_zeroSized beyond hz
    exact absurd (h version hv i op i (hi.cursorAt_memory beyond) hz.lt hp) (Nat.lt_irrefl i)

def zeroSizedWrite : List Byte :=
  [0, 1, 3, 6, 5, 1, 0, 0, 1, 0, 0, 0, 40, 0, 0, 0] ++ List.replicate 24 0

theorem zeroSizedWrite_loops : ¬Halts (.checked zeroSizedWrite) := by
  have hp : parseOp (.checked zeroSizedWrite) kTxnHeaderBytes .v0_1 =
      .ok (⟨{ opcode := .WRITE }, none, none, none⟩, kTxnHeaderBytes) := rfl
  have hv : txnVersion zeroSizedWrite = .ok .v0_1 := rfl
  exact not_halts_of_stuck (by decide) hv ⟨[], .refl⟩ (by decide) hp

/-! ## Reads in bounds -/

/-- A sync or patch whose op size is not all there, or a patch that passes its checks and ends
before the last word it is read for. -/
def Overreads (version : TxnVersion) (data : List Byte) (i : ℕ) : Prop :=
  i < data.length ∧
    ((byteAt data i = TxnOpcode.TCT.code ∨ byteAt data i = TxnOpcode.DDR_PATCH.code) ∧
        data.length < i + 8 ∨
      byteAt data i = TxnOpcode.DDR_PATCH.code ∧ (∃ n, opLength version data i = some n) ∧
        data.length < i + 48)

def ReadsOutOfRange (data : List Byte) : Prop :=
  ∃ fuel o, parseTransactionBinary (.checked data) fuel = some (.error (.outOfRange o))

/-- `r` is not such a stop. -/
def InBounds {α : Type} (r : Except Stop α) : Prop := ∀ o, r ≠ .error (.outOfRange o)

theorem InBounds.ok {α : Type} (a : α) : InBounds (.ok a) := fun _ => by simp

theorem InBounds.require {α : Type} {o n : ℕ} {k : Unit → Except Stop α}
    (hk : o + n ≤ data.length → InBounds (k ())) : InBounds (requireBytes data o n >>= k) := by
  by_cases h : o + n ≤ data.length
  · rw [requireBytes_of_le h]
    exact hk h
  · rw [requireBytes_of_lt (by omega)]
    exact fun _ h => by cases h

theorem InBounds.requireOp {α : Type} {i n least : ℕ} {k : Unit → Except Stop α}
    (hk : least ≤ n → i + n ≤ data.length → InBounds (k ())) :
    InBounds (requireOp data i n least >>= k) := by
  by_cases h : least ≤ n ∧ i + n ≤ data.length
  · rw [requireOp_of_le h.1 h.2]
    exact hk h.1 h.2
  · obtain ⟨m, hm⟩ := requireOp_error h
    rw [hm]
    exact fun _ h => by cases h

section Operations

variable (R : Reader data) (i : ℕ)

theorem parseWrite_v0_1_inBounds : InBounds (parseWrite_v0_1 R i) := by
  refine .require fun hn => ?_
  simp (disch := omega) only [R.read32_bind]
  exact .require fun _ => .ok _

theorem parseBlockWrite_v0_1_inBounds : InBounds (parseBlockWrite_v0_1 R i) := by
  refine .require fun hn => ?_
  simp (disch := omega) only [R.read32_bind]
  exact .requireOp fun _ _ => .ok _

theorem parseMaskWrite_v0_1_inBounds : InBounds (parseMaskWrite_v0_1 R i) := by
  refine .require fun hn => ?_
  simp (disch := omega) only [R.read32_bind]
  exact .require fun _ => .ok _

theorem parseWrite_v1_0_inBounds : InBounds (parseWrite_v1_0 R i) := by
  refine .require fun hn => ?_
  simp (disch := omega) only [R.read32_bind]
  exact .ok _

theorem parseBlockWrite_v1_0_inBounds : InBounds (parseBlockWrite_v1_0 R i) := by
  refine .require fun hn => ?_
  simp (disch := omega) only [R.read32_bind]
  exact .requireOp fun _ _ => .ok _

theorem parseMaskWrite_v1_0_inBounds : InBounds (parseMaskWrite_v1_0 R i) := by
  refine .require fun hn => ?_
  simp (disch := omega) only [R.read32_bind]
  exact .ok _

theorem parseLoadPdi_inBounds : InBounds (parseLoadPdi data i) := .require fun _ => .ok _

theorem parsePreempt_inBounds : InBounds (parsePreempt data i) := .require fun _ => .ok _

theorem parseTct_inBounds (h : i + 8 ≤ data.length) : InBounds (parseTct R i) := by
  unfold parseTct
  rw [R.read32_bind (by omega)]
  refine .requireOp fun hl hn => ?_
  simp (disch := omega) only [R.read32_bind]
  exact .ok _

theorem parseDdrPatch_inBounds (h : i + 8 ≤ data.length)
    (hlast : (wordAt data (i + 4)).toNat < 44 ∨ data.length < i + (wordAt data (i + 4)).toNat ∨
      i + 48 ≤ data.length) : InBounds (parseDdrPatch R i) := by
  unfold parseDdrPatch
  rw [R.read32_bind (by omega)]
  refine .requireOp fun hl hn => ?_
  simp (disch := omega) only [R.read32_bind]
  exact .ok _

end Operations

theorem parseOp_inBounds {version : TxnVersion} {i : ℕ} (R : Reader data)
    (hi : i < data.length) (hno : ¬Overreads version data i) : InBounds (parseOp R i version) := by
  cases hopc : convertOpcode (byteAt data i) with
  | error e =>
    have he : ∃ m, e = .rejected m := by
      unfold convertOpcode at hopc
      split_ifs at hopc
      cases hopc
      exact ⟨_, rfl⟩
    obtain ⟨m, rfl⟩ := he
    rw [parseOp, hopc]
    exact fun _ h => by cases h
  | ok opc =>
    have hop : parseOp R i version = parseOpcode R i version opc := by
      rw [parseOp, hopc]
      rfl
    have hcode := code_of_convertOpcode hopc
    have hroom (hc : opc = .TCT ∨ opc = .DDR_PATCH) : i + 8 ≤ data.length := by
      by_contra hlt
      refine hno ⟨hi, .inl ⟨?_, by omega⟩⟩
      rcases hc with rfl | rfl
      · exact .inl hcode
      · exact .inr hcode
    have hlast (hc : opc = .DDR_PATCH) : (wordAt data (i + 4)).toNat < 44 ∨
        data.length < i + (wordAt data (i + 4)).toNat ∨ i + 48 ≤ data.length := by
      by_contra hlt
      subst hc
      have hc : (opHeader version .DDR_PATCH).Complete data i := by
        cases version <;> refine ⟨?_, ?_, ?_⟩ <;> simp [opHeader, OpHeader.declared] <;> omega
      refine hno ⟨hi, .inr ⟨hcode, ⟨(opHeader version .DDR_PATCH).declared data i, ?_⟩, by omega⟩⟩
      simp only [opLength, hopc, if_pos hc]
    rw [hop]
    cases version <;> cases opc
    · exact parseWrite_v0_1_inBounds R i
    · exact parseBlockWrite_v0_1_inBounds R i
    · exact parseMaskWrite_v0_1_inBounds R i
    · exact parsePreempt_inBounds i
    · exact parseLoadPdi_inBounds i
    · exact parseTct_inBounds R i (hroom (.inl rfl))
    · exact parseDdrPatch_inBounds R i (hroom (.inr rfl)) (hlast rfl)
    · exact parseWrite_v1_0_inBounds R i
    · exact parseBlockWrite_v1_0_inBounds R i
    · exact parseMaskWrite_v1_0_inBounds R i
    · exact parsePreempt_inBounds i
    · exact parseLoadPdi_inBounds i
    · exact parseTct_inBounds R i (hroom (.inl rfl))
    · exact parseDdrPatch_inBounds R i (hroom (.inr rfl)) (hlast rfl)

theorem Reader.checked_past {o : ℕ} (h : data.length < o + 4) :
    (Reader.checked data).read32 o = .error (.outOfRange o) := if_neg (by omega)

theorem parseOp_overreads {version : TxnVersion} {i : ℕ} (h : Overreads version data i) :
    ∃ o, parseOp (.checked data) i version = .error (.outOfRange o) := by
  obtain ⟨-, ⟨hop, hlt⟩ | ⟨hop, ⟨n, hn⟩, hlt⟩⟩ := h
  · have hread := Reader.checked_past (show data.length < i + 4 + 4 by omega)
    rcases hop with hop | hop <;> rw [parseOp, hop, convertOpcode_code] <;> cases version
    · exact ⟨i + 4, by simp [parseOpcode, parseTct, hread, bind, Except.bind]⟩
    · exact ⟨i + 4, by simp [parseOpcode, parseTct, hread, bind, Except.bind]⟩
    · exact ⟨i + 4, by simp [parseOpcode, parseDdrPatch, hread, bind, Except.bind]⟩
    · exact ⟨i + 4, by simp [parseOpcode, parseDdrPatch, hread, bind, Except.bind]⟩
  · simp only [opLength, hop, convertOpcode_code, Option.ite_none_right_eq_some] at hn
    have hc : 44 ≤ (wordAt data (i + 4)).toNat ∧ i + (wordAt data (i + 4)).toNat ≤ data.length := by
      cases version <;> exact hn.1.2
    have hread := Reader.checked_past (show data.length < i + 44 + 4 by omega)
    have hpatch : parseDdrPatch (.checked data) i = .error (.outOfRange (i + 44)) := by
      unfold parseDdrPatch
      rw [Reader.read32_bind _ (by omega), requireOp_of_le hc.1 hc.2]
      simp (disch := omega) only [Reader.read32_bind]
      rw [hread]
      rfl
    refine ⟨i + 44, ?_⟩
    rw [parseOp, hop, convertOpcode_code]
    cases version <;> exact hpatch

/-- **When the parser reads inside the vector.** The parse reads past the end exactly when an
operation boundary of the binary holds an overread. -/
theorem parseTransactionBinary_inBounds_iff (data : List Byte) :
    ¬ReadsOutOfRange data ↔ ∀ version i, txnVersion data = .ok version →
      OpBoundary version data i → ¬Overreads version data i := by
  refine ⟨fun h version i hv hi hover => h ?_, fun h hout => ?_⟩
  · have hlen : kTxnHeaderBytes ≤ data.length := Nat.le_trans hi.header_le (Nat.le_of_lt hover.1)
    have hstop : ∃ j o, CursorAt (.checked data) version j ∧ j < data.length ∧
        parseOp (.checked data) j version = .error (.outOfRange o) := by
      rcases hi.cursorAt (R := .checked data) with hc | ⟨j, o, e, hc, hj, ho, he, hp⟩
      · obtain ⟨o, hp⟩ := parseOp_overreads hover
        exact ⟨i, o, hc, hover.1, hp⟩
      · rw [Reader.checked_past ho] at he
        cases he
        exact ⟨j, o, hc, hj, hp⟩
    obtain ⟨j, o, ⟨ops, hreach⟩, hj, hp⟩ := hstop
    have hbody : (parseLoop (.checked data) version).body ⟨j, ops⟩ = .error (.outOfRange o) := by
      simp [parseLoop, hp, bind, Except.bind]
    obtain ⟨fuel, hf⟩ := (Loop.error_iff _ _).mpr ⟨_, hreach, by simpa [parseLoop] using hj, hbody⟩
    exact ⟨fuel, o, by rw [parseTransactionBinary_eq _ hlen hv, hf]; rfl⟩
  · obtain ⟨fuel, o, hout⟩ := hout
    rcases header_cases data with hrej | ⟨hlen, version, hv⟩
    · obtain ⟨m, hm⟩ := parseTransactionBinary_rejects (.checked data) hrej
      rw [hm] at hout
      cases hout
    · rw [parseTransactionBinary_eq _ hlen hv] at hout
      have hf : (parseLoop (.checked data) version).run fuel ⟨kTxnHeaderBytes, []⟩ =
          some (.error (.outOfRange o)) := by
        cases hr : (parseLoop (.checked data) version).run fuel ⟨kTxnHeaderBytes, []⟩ with
        | none => simp [hr] at hout
        | some r => cases r <;> simp_all [Except.map]
      obtain ⟨s, hs, hlt, hb⟩ := (Loop.error_iff _ _).mp ⟨fuel, hf⟩
      have hlt : s.i < data.length := by simpa [parseLoop] using hlt
      have hp : parseOp (.checked data) s.i version = .error (.outOfRange o) := by
        cases hp : parseOp (.checked data) s.i version with
        | error e => simpa [parseLoop, hp, bind, Except.bind] using hb
        | ok r => simp [parseLoop, hp, bind, Except.bind, pure, Except.pure] at hb
      have hbound := (show CursorAt (.checked data) version s.i from ⟨s.ops, hs⟩).boundary
      exact parseOp_inBounds _ hlt (h version s.i hv hbound) o hp

/-- A v0.1 binary whose only operation is the first byte of a sync. -/
def truncatedSync : List Byte := [0, 1, 3, 6, 5, 1, 0, 0, 1, 0, 0, 0, 17, 0, 0, 0, 0x80]

/-- A v1.0 binary of one patch of 44 bytes. -/
def shortPatch : List Byte :=
  [1, 0, 3, 6, 5, 1, 0, 0, 1, 0, 0, 0, 60, 0, 0, 0, 0x81, 0, 0, 0, 44] ++ List.replicate 39 0

theorem truncated_readsOutOfRange : ReadsOutOfRange truncatedSync ∧ ReadsOutOfRange shortPatch :=
  ⟨⟨1, 20, rfl⟩, ⟨1, 60, rfl⟩⟩

end MlirAie.Txn
