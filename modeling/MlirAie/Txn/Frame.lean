import MlirAie.Txn.Parse

/-!
# The framing of a transaction binary

Where the operations of a binary start and end, read off a table of headers and no payload: the
bytes an opcode must have before it is parsed, where its size field is, the least size let through
and how far the parse reads.

* `OpHeader`, `opHeader`: the table;
* `OpBoundary`: the offsets operations start at;
* **`parseOp_fits`**: an iteration accepts what the table calls complete and moves by its length,
  unless it stops at a read past the end.
-/

namespace MlirAie.Txn

open MlirAie.Lib

/-- What the parser checks of an opcode before and after it reads the op size, and `reach`, the end
of the last byte it reads. -/
structure OpHeader where
  need : ℕ
  sizeField : Option ℕ
  least : ℕ
  reach : ℕ

/-- The header table of the two versions. -/
@[grind =] def opHeader : TxnVersion → TxnOpcode → OpHeader
  | .v0_1, .WRITE => ⟨24, some 20, 0, 24⟩
  | .v0_1, .BLOCKWRITE => ⟨16, some 12, 16, 16⟩
  | .v0_1, .MASKWRITE => ⟨28, some 24, 0, 28⟩
  | .v1_0, .WRITE => ⟨12, none, 12, 12⟩
  | .v1_0, .BLOCKWRITE => ⟨12, some 8, 12, 12⟩
  | .v1_0, .MASKWRITE => ⟨16, none, 16, 16⟩
  | _, .TCT => ⟨0, some 4, 16, 16⟩
  | _, .LOAD_PDI => ⟨16, none, 16, 16⟩
  | _, .DDR_PATCH => ⟨0, some 4, 44, 48⟩
  | _, .PREEMPT => ⟨4, none, 4, 4⟩

/-- The bytes the operation at `i` declares to take. -/
def OpHeader.declared (h : OpHeader) (data : List Byte) (i : ℕ) : ℕ :=
  match h.sizeField with
  | none => h.need
  | some f => (wordAt data (i + f)).toNat

/-- The operation at `i` passes the parser's bounds checks. -/
def OpHeader.Complete (h : OpHeader) (data : List Byte) (i : ℕ) : Prop :=
  i + h.need ≤ data.length ∧ h.least ≤ h.declared data i ∧ i + h.declared data i ≤ data.length

instance (h : OpHeader) (data : List Byte) (i : ℕ) : Decidable (h.Complete data i) :=
  inferInstanceAs (Decidable (_ ∧ _))

/-- The length of the operation at `i`, if there is a complete one. -/
def opLength (version : TxnVersion) (data : List Byte) (i : ℕ) : Option ℕ :=
  match convertOpcode (byteAt data i) with
  | .error _ => none
  | .ok opc =>
    let h := opHeader version opc
    if h.Complete data i then some (h.declared data i) else none

/-- The offsets the operations of a binary start at. -/
inductive OpBoundary (version : TxnVersion) (data : List Byte) : ℕ → Prop
  | first : OpBoundary version data kTxnHeaderBytes
  | next {i n : ℕ} : OpBoundary version data i → i < data.length →
      opLength version data i = some n → OpBoundary version data (i + n)

theorem OpBoundary.header_le {version : TxnVersion} {data : List Byte} {i : ℕ}
    (h : OpBoundary version data i) : kTxnHeaderBytes ≤ i := by
  induction h with
  | first => exact Nat.le_refl _
  | next _ _ _ ih => omega

variable {data : List Byte} (R : Reader data)

/-- What the table says of one iteration at an operation with header `h`: it moves over a complete
operation, or is stopped at a read past the end of one, and rejects an incomplete one. -/
inductive Fits (h : OpHeader) (i : ℕ) : Except Stop (TransactionBinaryOperation × ℕ) → Prop
  | accepts (op) : h.Complete data i → Fits h i (.ok (op, i + h.declared data i))
  | outside (o e) : h.Complete data i → data.length < o + 4 → R.read32 o = .error e →
      Fits h i (.error e)
  | rejects (e) : ¬h.Complete data i → Fits h i (.error e)

/-! ## The checks -/

theorem requireBytes_of_le {o n : ℕ} (h : o + n ≤ data.length) :
    requireBytes data o n = .ok () := if_neg (by omega)

theorem requireBytes_of_lt {o n : ℕ} (h : data.length < o + n) :
    requireBytes data o n = .error (.rejected truncated) := if_pos h

theorem requireOp_of_le {i n least : ℕ} (hl : least ≤ n) (h : i + n ≤ data.length) :
    requireOp data i n least = .ok () := by
  rw [requireOp, if_neg (by omega), requireBytes_of_le h]

theorem requireOp_zero {i n : ℕ} : requireOp data i n 0 = requireBytes data i n := by
  simp [requireOp]

theorem requireOp_error {i n least : ℕ} (h : ¬(least ≤ n ∧ i + n ≤ data.length)) :
    ∃ m, requireOp data i n least = .error (.rejected m) := by
  unfold requireOp requireBytes
  split_ifs
  · exact ⟨_, rfl⟩
  · exact ⟨_, rfl⟩
  · omega

theorem Reader.read32_bind {α : Type} {o : ℕ} (h : o + 4 ≤ data.length)
    (k : Word → Except Stop α) : (R.read32 o >>= k) = k (wordAt data o) := by
  rw [R.inRange o h]
  rfl

variable {R} {h : OpHeader} {i : ℕ}

/-- The first check of an operation. -/
theorem Fits.need {k : Unit → Except Stop (TransactionBinaryOperation × ℕ)}
    (hk : i + h.need ≤ data.length → Fits R h i (k ())) :
    Fits R h i (requireBytes data i h.need >>= k) := by
  by_cases hn : i + h.need ≤ data.length
  · rw [requireBytes_of_le hn]
    exact hk hn
  · rw [requireBytes_of_lt (by omega)]
    exact .rejects _ fun hc => hn hc.1

theorem Fits.size {k : Unit → Except Stop (TransactionBinaryOperation × ℕ)}
    (hn : i + h.need ≤ data.length) (hk : h.Complete data i → Fits R h i (k ())) :
    Fits R h i (requireOp data i (h.declared data i) h.least >>= k) := by
  by_cases hs : h.least ≤ h.declared data i ∧ i + h.declared data i ≤ data.length
  · rw [requireOp_of_le hs.1 hs.2]
    exact hk ⟨hn, hs⟩
  · obtain ⟨m, hm⟩ := requireOp_error hs
    rw [hm]
    exact .rejects _ fun hc => hs hc.2

theorem Fits.uncheckedSize {o : ℕ} {k : Word → Except Stop (TransactionBinaryOperation × ℕ)}
    (ho : i + o + 4 ≤ data.length → Fits R h i (k (wordAt data (i + o))))
    (hl : o + 4 ≤ h.least)
    (hk : ∀ n, (n.toNat < h.least ∨ data.length < i + n.toNat) → ∃ e, k n = .error e) :
    Fits R h i (R.read32 (i + o) >>= k) := by
  by_cases hn : i + o + 4 ≤ data.length
  · rw [R.read32_bind hn]
    exact ho hn
  · have hc : ¬h.Complete data i := fun hc => hn (by have := hc.2; omega)
    cases hr : R.read32 (i + o) with
    | error e => exact .rejects e hc
    | ok n =>
      obtain ⟨e, he⟩ := hk n (by omega)
      exact (congrArg (Fits R h i) he).mpr (.rejects e hc)

theorem Fits.lastRead {o : ℕ} {k : Word → TransactionBinaryOperation × ℕ} (hc : h.Complete data i)
    (hk : ∀ w, (k w).2 = i + h.declared data i) :
    Fits R h i (R.read32 o >>= fun w => .ok (k w)) := by
  have accepts (w : Word) : Fits R h i (.ok (k w)) := by
    rw [show k w = ((k w).1, i + h.declared data i) from Prod.ext rfl (hk w)]
    exact .accepts _ hc
  by_cases ho : o + 4 ≤ data.length
  · rw [R.read32_bind ho]
    exact accepts _
  · cases hr : R.read32 o with
    | error e => exact .outside o e hc (by omega) hr
    | ok w => exact accepts w

/-! ## Opcodes -/

theorem convertOpcode_code (opc : TxnOpcode) : convertOpcode opc.code = .ok opc := by
  cases opc <;> rfl

theorem code_of_convertOpcode {b : Byte} {opc : TxnOpcode} (h : convertOpcode b = .ok opc) :
    b = opc.code := by
  unfold convertOpcode at h
  split_ifs at h with h₁ h₂ h₃ h₄ h₅ h₆ h₇ <;> cases h <;> assumption

/-! ## One operation at a time -/

section Operations

variable (R) (i)

theorem parseWrite_v0_1_fits : Fits R (opHeader .v0_1 .WRITE) i (parseWrite_v0_1 R i) := by
  refine .need fun hn => ?_
  simp only [opHeader] at hn
  simp (disch := omega) only [R.read32_bind]
  rw [← requireOp_zero]
  exact .size hn fun hc => .accepts _ hc

theorem parseBlockWrite_v0_1_fits :
    Fits R (opHeader .v0_1 .BLOCKWRITE) i (parseBlockWrite_v0_1 R i) := by
  refine .need fun hn => ?_
  simp only [opHeader] at hn
  simp (disch := omega) only [R.read32_bind]
  exact .size hn fun hc => .accepts _ hc

theorem parseMaskWrite_v0_1_fits :
    Fits R (opHeader .v0_1 .MASKWRITE) i (parseMaskWrite_v0_1 R i) := by
  refine .need fun hn => ?_
  simp only [opHeader] at hn
  simp (disch := omega) only [R.read32_bind]
  rw [← requireOp_zero]
  exact .size hn fun hc => .accepts _ hc

theorem OpHeader.complete_of_fixed (hf : h.sizeField = none) (hl : h.least = h.need)
    (hn : i + h.need ≤ data.length) : h.Complete data i := by
  have : h.declared data i = h.need := by simp [OpHeader.declared, hf]
  exact ⟨hn, by omega, by omega⟩

theorem parseWrite_v1_0_fits : Fits R (opHeader .v1_0 .WRITE) i (parseWrite_v1_0 R i) := by
  refine .need fun hn => ?_
  have hc := OpHeader.complete_of_fixed i rfl rfl hn
  simp only [opHeader] at hn
  simp (disch := omega) only [R.read32_bind]
  exact .accepts _ hc

theorem parseBlockWrite_v1_0_fits :
    Fits R (opHeader .v1_0 .BLOCKWRITE) i (parseBlockWrite_v1_0 R i) := by
  refine .need fun hn => ?_
  simp only [opHeader] at hn
  simp (disch := omega) only [R.read32_bind]
  exact .size hn fun hc => .accepts _ hc

theorem parseMaskWrite_v1_0_fits :
    Fits R (opHeader .v1_0 .MASKWRITE) i (parseMaskWrite_v1_0 R i) := by
  refine .need fun hn => ?_
  have hc := OpHeader.complete_of_fixed i rfl rfl hn
  simp only [opHeader] at hn
  simp (disch := omega) only [R.read32_bind]
  exact .accepts _ hc

theorem parseTct_fits (version : TxnVersion) : Fits R (opHeader version .TCT) i (parseTct R i) := by
  have hh : opHeader version .TCT = ⟨0, some 4, 16, 16⟩ := by cases version <;> rfl
  rw [hh]
  refine .uncheckedSize (fun ho => .size (by simp; omega) fun hc => ?_) (by simp) fun n hn => ?_
  · have hlen := hc.2
    simp only at hlen
    simp (disch := omega) only [R.read32_bind]
    exact .accepts _ hc
  · have hbad : ¬(16 ≤ n.toNat ∧ i + n.toNat ≤ data.length) := by
      simp only at hn
      omega
    obtain ⟨m, hm⟩ := requireOp_error hbad
    exact ⟨_, by rw [hm]; rfl⟩

theorem parseLoadPdi_fits (version : TxnVersion) :
    Fits R (opHeader version .LOAD_PDI) i (parseLoadPdi data i) := by
  have hh : opHeader version .LOAD_PDI = ⟨16, none, 16, 16⟩ := by cases version <;> rfl
  rw [hh]
  exact .need fun hn => .accepts _ (OpHeader.complete_of_fixed i rfl rfl hn)

theorem parseDdrPatch_fits (version : TxnVersion) :
    Fits R (opHeader version .DDR_PATCH) i (parseDdrPatch R i) := by
  have hh : opHeader version .DDR_PATCH = ⟨0, some 4, 44, 48⟩ := by cases version <;> rfl
  rw [hh]
  refine .uncheckedSize (fun ho => .size (by simp; omega) fun hc => ?_) (by simp) fun n hn => ?_
  · have hlen := hc.2
    simp only at hlen
    simp (disch := omega) only [R.read32_bind]
    exact .lastRead hc fun _ => rfl
  · have hbad : ¬(44 ≤ n.toNat ∧ i + n.toNat ≤ data.length) := by
      simp only at hn
      omega
    obtain ⟨m, hm⟩ := requireOp_error hbad
    exact ⟨_, by rw [hm]; rfl⟩

theorem parsePreempt_fits (version : TxnVersion) :
    Fits R (opHeader version .PREEMPT) i (parsePreempt data i) := by
  have hh : opHeader version .PREEMPT = ⟨4, none, 4, 4⟩ := by cases version <;> rfl
  rw [hh]
  exact .need fun hn => .accepts _ (OpHeader.complete_of_fixed i rfl rfl hn)

/-- **The framing of an iteration.** -/
theorem parseOp_fits (version : TxnVersion) {opc : TxnOpcode}
    (hopc : convertOpcode (byteAt data i) = .ok opc) :
    Fits R (opHeader version opc) i (parseOp R i version) := by
  have hop : parseOp R i version = parseOpcode R i version opc := by
    rw [parseOp, hopc]
    rfl
  rw [hop]
  cases version <;> cases opc
  · exact parseWrite_v0_1_fits R i
  · exact parseBlockWrite_v0_1_fits R i
  · exact parseMaskWrite_v0_1_fits R i
  · exact parsePreempt_fits R i .v0_1
  · exact parseLoadPdi_fits R i .v0_1
  · exact parseTct_fits R i .v0_1
  · exact parseDdrPatch_fits R i .v0_1
  · exact parseWrite_v1_0_fits R i
  · exact parseBlockWrite_v1_0_fits R i
  · exact parseMaskWrite_v1_0_fits R i
  · exact parsePreempt_fits R i .v1_0
  · exact parseLoadPdi_fits R i .v1_0
  · exact parseTct_fits R i .v1_0
  · exact parseDdrPatch_fits R i .v1_0

theorem parseOp_ok {version : TxnVersion} {op : TransactionBinaryOperation} {j : ℕ}
    (h : parseOp R i version = .ok (op, j)) :
    ∃ n, opLength version data i = some n ∧ j = i + n := by
  cases hopc : convertOpcode (byteAt data i) with
  | error e =>
    rw [parseOp, hopc] at h
    cases h
  | ok opc =>
    have hf := parseOp_fits R i version hopc
    rw [h] at hf
    cases hf with
    | accepts _ hc => exact ⟨_, by simp [opLength, hopc, hc], rfl⟩

theorem parseOp_of_length {version : TxnVersion} {n : ℕ} (h : opLength version data i = some n) :
    (∃ op, parseOp R i version = .ok (op, i + n)) ∨
      ∃ o e, data.length < o + 4 ∧ R.read32 o = .error e ∧ parseOp R i version = .error e := by
  cases hopc : convertOpcode (byteAt data i) with
  | error e => simp [opLength, hopc] at h
  | ok opc =>
    have hf := parseOp_fits R i version hopc
    simp only [opLength, hopc, Option.ite_none_right_eq_some, Option.some.injEq] at h
    obtain ⟨hc, rfl⟩ := h
    generalize hr : parseOp R i version = r at hf ⊢
    cases hf with
    | accepts op _ => exact .inl ⟨op, rfl⟩
    | outside o e _ ho he => exact .inr ⟨o, e, ho, he, rfl⟩
    | rejects e hc' => exact absurd hc hc'

end Operations

/-! ## The cursor -/

/-- The states the loop head sees: some operations pushed, the cursor at `i`. -/
def CursorAt (R : Reader data) (version : TxnVersion) (i : ℕ) : Prop :=
  ∃ ops, (parseLoop R version).Reaches ⟨kTxnHeaderBytes, []⟩ ⟨i, ops⟩

theorem parseTransactionBinary_eq (R : Reader data) {version : TxnVersion}
    (hlen : kTxnHeaderBytes ≤ data.length) (hv : txnVersion data = .ok version) (fuel : ℕ) :
    parseTransactionBinary R fuel = ((parseLoop R version).run fuel ⟨kTxnHeaderBytes, []⟩).map
      fun r => r.map fun s => ⟨(byteAt data 4).toNat, s.ops, s.i⟩ := by
  rw [parseTransactionBinary, if_neg (by omega), hv]

theorem parseTransactionBinary_rejects (R : Reader data)
    (h : data.length < kTxnHeaderBytes ∨ ∃ e, txnVersion data = .error e) :
    ∃ m, ∀ fuel, parseTransactionBinary R fuel = some (.error (.rejected m)) := by
  unfold parseTransactionBinary
  by_cases hlen : data.length < kTxnHeaderBytes
  · exact ⟨_, fun _ => if_pos hlen⟩
  · obtain ⟨e, he⟩ := h.resolve_left hlen
    have hm : ∃ m, e = .rejected m := by
      unfold txnVersion at he
      split_ifs at he
      cases he
      exact ⟨_, rfl⟩
    obtain ⟨m, rfl⟩ := hm
    exact ⟨m, fun _ => by rw [if_neg hlen, he]⟩

theorem parseLoop_steps {R : Reader data} {version : TxnVersion} {s t : ParseState} :
    (parseLoop R version).Steps s t ↔ s.i < data.length ∧
      ∃ op, parseOp R s.i version = .ok (op, t.i) ∧ t.ops = s.ops ++ [op] := by
  obtain ⟨j, ops⟩ := t
  simp only [Loop.Steps, parseLoop, decide_eq_true_eq]
  refine and_congr_right fun _ => ?_
  cases hp : parseOp R s.i version with
  | error e => simp [bind, Except.bind]
  | ok r => simp [bind, Except.bind, pure, Except.pure, Prod.ext_iff, eq_comm, and_comm]

theorem CursorAt.boundary {R : Reader data} {version : TxnVersion} {i : ℕ}
    (h : CursorAt R version i) : OpBoundary version data i := by
  obtain ⟨ops, h⟩ := h
  generalize hs : (⟨i, ops⟩ : ParseState) = s at h
  obtain rfl : i = s.i := by rw [← hs]
  clear hs
  induction h with
  | refl => exact .first
  | tail _ hst ih =>
    obtain ⟨hlt, op, hp, -⟩ := parseLoop_steps.1 hst
    obtain ⟨n, hn, hj⟩ := parseOp_ok _ _ hp
    rw [hj]
    exact .next ih hlt hn

theorem CursorAt.step {R : Reader data} {version : TxnVersion} {i j : ℕ}
    {op : TransactionBinaryOperation} (h : CursorAt R version i) (hi : i < data.length)
    (hp : parseOp R i version = .ok (op, j)) : CursorAt R version j := by
  obtain ⟨ops, h⟩ := h
  exact ⟨ops ++ [op], h.tail (parseLoop_steps.2 ⟨hi, op, hp, rfl⟩)⟩

theorem OpBoundary.cursorAt {R : Reader data} {version : TxnVersion} {i : ℕ}
    (h : OpBoundary version data i) :
    CursorAt R version i ∨ ∃ j o e, CursorAt R version j ∧ j < data.length ∧
      data.length < o + 4 ∧ R.read32 o = .error e ∧ parseOp R j version = .error e := by
  induction h with
  | first => exact .inl ⟨[], .refl⟩
  | @next i n _ hi hn ih =>
    rcases ih with hc | hstop
    · rcases parseOp_of_length R i hn with ⟨op, hp⟩ | ⟨o, e, ho, he, hp⟩
      · exact .inl (hc.step hi hp)
      · exact .inr ⟨i, o, e, hc, hi, ho, he, hp⟩
    · exact .inr hstop

end MlirAie.Txn
