import MlirAie.CtrlPkt.Batch

/-!
# Control packets and the registers they leave

A mask write becomes a plain write of its value and packets in a row on one address are OR-ed, so
the packets leave the registers of the transaction only while no operation relies on clearing a bit.

* `writeWords`, `applyPackets`, `execOps`: what packets and operations do to the register file;
* `lower_snoc`: the step, one more operation;
* **`lowerToControlPackets_registers`**: a transaction of faithful operations and its packets leave
  the same registers.
-/

namespace MlirAie.CtrlPkt

open MlirAie.Txn

abbrev Registers := Word → Word

@[grind =] def writeWords (rf : Registers) : Word → List Word → Registers
  | _, [] => rf
  | a, w :: ws => writeWords (Function.update rf a w) (a + 4) ws

def applyPacket (rf : Registers) (p : NpuControlPacket) : Registers :=
  writeWords rf p.address (p.data.getD [])

def applyPackets (rf : Registers) (ps : List NpuControlPacket) : Registers :=
  ps.foldl applyPacket rf

/-- What an operation does; only the bits set in the mask of a mask write take its value. -/
@[grind =] def execOp (rf : Registers) (op : TransactionBinaryOperation) : Registers :=
  match op.cmd.opcode with
  | .WRITE => writeWords rf (address op) [op.cmd.value]
  | .BLOCKWRITE => writeWords rf (address op) (payloadWords op.cmd.payload)
  | .MASKWRITE => writeWords rf (address op)
      [(rf (address op) &&& ~~~op.cmd.mask) ||| (op.cmd.value &&& op.cmd.mask)]
  | _ => rf

def execOps (rf : Registers) (ops : List TransactionBinaryOperation) : Registers :=
  ops.foldl execOp rf

def Registers.zero : Registers := fun _ => 0

/-! ## Writing words -/

theorem writeWords_append (rf : Registers) (a : Word) (us vs : List Word) :
    writeWords rf a (us ++ vs) =
      writeWords (writeWords rf a us) (a + BitVec.ofNat 32 (us.length * 4)) vs := by
  induction us generalizing rf a with
  | nil => simp [writeWords]
  | cons u us ih =>
    have hnext : a + 4 + BitVec.ofNat 32 (us.length * 4) =
        a + BitVec.ofNat 32 ((u :: us).length * 4) := by
      apply BitVec.eq_of_toNat_eq
      simp
      omega
    rw [List.cons_append, writeWords, ih, hnext, writeWords]

theorem applyPackets_beats (rf : Registers) (a : Word) (ws : List Word) :
    applyPackets rf (beats a ws) = writeWords rf a ws := by
  induction a, ws using beats.induct generalizing rf with
  | case1 a => simp [beats, applyPackets, writeWords]
  | case2 a w ws _ ih =>
    rw [beats]
    simp only [applyPackets, List.foldl_cons] at ih ⊢
    rw [ih]
    simp only [applyPacket, Option.getD_some]
    rw [← writeWords_append, List.take_append_drop]

theorem add_four_add (a : Word) (j : ℕ) :
    a + 4 + BitVec.ofNat 32 (j * 4) = a + BitVec.ofNat 32 ((j + 1) * 4) := by
  apply BitVec.eq_of_toNat_eq
  simp
  omega

theorem ne_add_four_add (a : Word) {j : ℕ} (hj : j < 2 ^ 30 - 1) :
    a ≠ a + 4 + BitVec.ofNat 32 (j * 4) := by
  intro h
  have := congrArg BitVec.toNat h
  simp at this
  omega

theorem writeWords_of_ne (rf : Registers) {a x : Word} {ws : List Word}
    (hx : ∀ j < ws.length, x ≠ a + BitVec.ofNat 32 (j * 4)) : writeWords rf a ws x = rf x := by
  induction ws generalizing rf a with
  | nil => rfl
  | cons w ws ih =>
    rw [writeWords, ih]
    · have h₀ := hx 0 (by simp)
      simp only [Nat.zero_mul, BitVec.add_zero] at h₀
      exact Function.update_of_ne h₀ _ _
    · intro j hj
      rw [add_four_add]
      exact hx (j + 1) (by simpa using hj)

theorem writeWords_of_lt (rf : Registers) {a : Word} {ws : List Word} {j : ℕ} (hj : j < ws.length)
    (hlen : ws.length < 2 ^ 30) : writeWords rf a ws (a + BitVec.ofNat 32 (j * 4)) = ws[j] := by
  induction ws generalizing rf a j with
  | nil => simp at hj
  | cons w ws ih =>
    simp only [List.length_cons] at hj hlen
    cases j with
    | zero =>
      rw [Nat.zero_mul, BitVec.add_zero, writeWords,
        writeWords_of_ne _ fun j hj => ne_add_four_add a (by omega)]
      exact Function.update_self _ _ _
    | succ j =>
      rw [← add_four_add, writeWords, ih _ (by omega) (by omega)]
      rfl

theorem update_writeWords (rf : Registers) {a b : Word} (v : Word) {ws : List Word}
    (hx : ∀ j < ws.length, a ≠ b + BitVec.ofNat 32 (j * 4)) :
    Function.update (writeWords rf b ws) a v = writeWords (Function.update rf a v) b ws := by
  induction ws generalizing rf b with
  | nil => rfl
  | cons w ws ih =>
    have h₀ : a ≠ b := by simpa using hx 0 (by simp)
    rw [writeWords, ih, writeWords, Function.update_comm h₀]
    intro j hj
    rw [add_four_add]
    exact hx (j + 1) (by simpa using hj)

/-- **Writing the OR is writing twice**, when the second write clears no bit of the first. -/
theorem writeWords_orData (rf : Registers) (a : Word) {us vs : List Word}
    (hus : us.length < 2 ^ 30)
    (h : ∀ j (h₁ : j < us.length) (h₂ : j < vs.length), us[j] ||| vs[j] = vs[j]) :
    writeWords rf a (orData us vs) = writeWords (writeWords rf a us) a vs := by
  induction us generalizing rf a vs with
  | nil => rfl
  | cons u us ih =>
    cases vs with
    | nil => rfl
    | cons v vs =>
      simp only [List.length_cons] at hus
      have h₀ : u ||| v = v := h 0 (by simp) (by simp)
      have hrest (j : ℕ) (h₁ : j < us.length) (h₂ : j < vs.length) : us[j] ||| vs[j] = vs[j] :=
        h (j + 1) (by simpa using h₁) (by simpa using h₂)
      have hne (j : ℕ) (hj : j < us.length) : a ≠ a + 4 + BitVec.ofNat 32 (j * 4) :=
        ne_add_four_add a (by omega)
      simp only [orData, writeWords, h₀]
      rw [ih _ _ (by omega) hrest, update_writeWords _ _ hne, Function.update_idem]

theorem orData_length (us vs : List Word) :
    (orData us vs).length = max us.length vs.length := by
  induction us generalizing vs with
  | nil => simp [orData]
  | cons u us ih => cases vs <;> simp [orData, ih]

/-! ## Merging -/

theorem orInto_of_ne {buf p : NpuControlPacket} (h : buf.address ≠ p.address)
    (ps : List NpuControlPacket) : orInto buf (p :: ps) = (orInto p ps).map (buf :: ·) := by
  rw [orInto, if_pos h]
  rfl

theorem orInto_of_eq {buf p : NpuControlPacket} {us vs : List Word}
    (h : buf.address = p.address) (hus : buf.data = some us) (hvs : p.data = some vs)
    (ps : List NpuControlPacket) :
    orInto buf (p :: ps) = orInto { buf with data := some (orData us vs) } ps := by
  rw [orInto, if_neg (not_not.2 h), hus, hvs]

theorem orInto_error {buf p : NpuControlPacket} (h : buf.address = p.address)
    (hdata : buf.data = none ∨ p.data = none) (ps : List NpuControlPacket) :
    ∃ e, orInto buf (p :: ps) = .error e := by
  rw [orInto, if_neg (not_not.2 h)]
  rcases hdata with hdata | hdata
  · rw [hdata]
    exact ⟨_, rfl⟩
  · rw [hdata]
    cases buf.data <;> exact ⟨_, rfl⟩

theorem orInto_cons_cases (buf p : NpuControlPacket) :
    buf.address ≠ p.address ∨
      (∃ us vs, buf.address = p.address ∧ buf.data = some us ∧ p.data = some vs) ∨
      buf.address = p.address ∧ (buf.data = none ∨ p.data = none) := by
  cases buf.data <;> cases p.data <;> simp [em']

theorem orInto_ne_nil {buf : NpuControlPacket} {ps out : List NpuControlPacket}
    (h : orInto buf ps = .ok out) : out ≠ [] := by
  induction ps generalizing buf out with
  | nil =>
    cases h
    simp
  | cons p ps ih =>
    rcases orInto_cons_cases buf p with hne | ⟨us, vs, heq, hus, hvs⟩ | ⟨heq, hnone⟩
    · rw [orInto_of_ne hne] at h
      cases hr : orInto p ps with
      | error e => simp [hr, Except.map] at h
      | ok r =>
        rw [hr] at h
        cases h
        simp
    · rw [orInto_of_eq heq hus hvs] at h
      exact ih h
    · obtain ⟨e, he⟩ := orInto_error heq hnone ps
      simp [he] at h

theorem orInto_append {buf last : NpuControlPacket} {ps init : List NpuControlPacket}
    (h : orInto buf ps = .ok (init ++ [last])) (qs : List NpuControlPacket) :
    orInto buf (ps ++ qs) = (orInto last qs).map (init ++ ·) := by
  induction ps generalizing buf init with
  | nil =>
    have hsingle : [buf] = init ++ [last] := by simpa [orInto] using h
    obtain ⟨rfl, rfl⟩ : init = [] ∧ buf = last := by
      cases init <;> simp_all
    cases hr : orInto buf qs <;> simp [hr, Except.map]
  | cons p ps ih =>
    rw [List.cons_append]
    rcases orInto_cons_cases buf p with hne | ⟨us, vs, heq, hus, hvs⟩ | ⟨heq, hnone⟩
    · rw [orInto_of_ne hne] at h ⊢
      cases hr : orInto p ps with
      | error e => simp [hr, Except.map] at h
      | ok r =>
        obtain ⟨init', rfl, hr'⟩ : ∃ init', init = buf :: init' ∧ r = init' ++ [last] := by
          have hcons : buf :: r = init ++ [last] := by simpa [hr, Except.map] using h
          cases init with
          | nil => simp_all [orInto_ne_nil hr]
          | cons x init' => exact ⟨init', by simp_all, by simp_all⟩
        rw [ih (hr' ▸ hr)]
        cases orInto last qs <;> simp [Except.map]
    · rw [orInto_of_eq heq hus hvs] at h ⊢
      exact ih h
    · obtain ⟨e, he⟩ := orInto_error heq hnone ps
      simp [he] at h

theorem length_take_four (w : Word) (ws : List Word) :
    0 < ((w :: ws).take 4).length ∧ ((w :: ws).take 4).length ≤ 4 := by
  rw [List.length_take, List.length_cons]
  omega

theorem ne_next_beat (a w : Word) (ws : List Word) :
    a ≠ a + BitVec.ofNat 32 (((w :: ws).take 4).length * 4) := by
  have hlen := length_take_four w ws
  intro heq
  have := congrArg BitVec.toNat heq
  simp only [BitVec.toNat_add, BitVec.toNat_ofNat] at this
  omega

theorem orInto_beats (a : Word) (ws : List Word) (buf : NpuControlPacket)
    (h : buf.address ≠ a ∨ ws = []) : orInto buf (beats a ws) = .ok (buf :: beats a ws) := by
  revert buf h
  induction a, ws using beats.induct with
  | case1 a => simp [beats, orInto]
  | case2 a w ws _ ih =>
    intro buf h
    rw [beats, orInto_of_ne (by simpa using h), ih _ (.inl (ne_next_beat a w ws))]
    rfl

/-! ## Lowering one more operation -/

def IsConfigOp (op : TransactionBinaryOperation) : Prop :=
  op.cmd.opcode = .WRITE ∨ op.cmd.opcode = .BLOCKWRITE ∨ op.cmd.opcode = .MASKWRITE

@[grind =] def packetWords (op : TransactionBinaryOperation) : List Word :=
  match op.cmd.opcode with
  | .BLOCKWRITE => payloadWords op.cmd.payload
  | _ => [op.cmd.value]

def writtenBits (op : TransactionBinaryOperation) : Word :=
  match op.cmd.opcode with
  | .MASKWRITE => op.cmd.mask
  | _ => BitVec.allOnes 32

/-- The data of the last packet of `ops`, when it is on the address `op` starts at. -/
def mergedWith (ops : List TransactionBinaryOperation) (op : TransactionBinaryOperation) :
    Option (List Word) :=
  match lowerToControlPackets ops with
  | .error _ => none
  | .ok packets =>
    match packets.getLast? with
    | none => none
    | some last => if last.address = address op then last.data else none

/-- After `ops`, lowering `op` keeps what it does to the registers. -/
structure Faithful (ops : List TransactionBinaryOperation) (op : TransactionBinaryOperation) :
    Prop where
  /-- Outside its mask, the value of a mask write with a packet of its own is the register's. -/
  alone : op.cmd.opcode = .MASKWRITE → mergedWith ops op = none →
    op.cmd.value &&& ~~~op.cmd.mask = execOps .zero ops (address op) &&& ~~~op.cmd.mask
  /-- An operation merged into a packet clears none of the bits it writes in the registers of that
  packet, and its value sets no other bit of them. -/
  merged : ∀ us, mergedWith ops op = some us →
    ∀ j (h : j < ((packetWords op).take 4).length), j < us.length →
      execOps .zero ops (address op + BitVec.ofNat 32 (j * 4)) &&& writtenBits op &&&
          ~~~((packetWords op).take 4)[j] = 0 ∧
        ((packetWords op).take 4)[j] &&& ~~~writtenBits op &&&
          ~~~execOps .zero ops (address op + BitVec.ofNat 32 (j * 4)) = 0

theorem beats_singleton (a v : Word) : beats a [v] = [{ address := a, data := some [v] }] := by
  rw [beats, List.take_of_length_le (by simp), List.drop_of_length_le (by simp), beats]

theorem emitControlPacketOp_eq {op : TransactionBinaryOperation} (h : IsConfigOp op) :
    emitControlPacketOp op = .ok (beats (address op) (packetWords op)) := by
  rcases h with h | h | h <;> simp [emitControlPacketOp, packetWords, h, beats_singleton]

theorem emitControlPacketOps_snoc {ops : List TransactionBinaryOperation}
    {op : TransactionBinaryOperation} {ps qs : List NpuControlPacket}
    (hps : emitControlPacketOps ops = .ok ps) (hqs : emitControlPacketOp op = .ok qs) :
    emitControlPacketOps (ops ++ [op]) = .ok (ps ++ qs) := by
  induction ops generalizing ps with
  | nil =>
    cases hps
    simp [emitControlPacketOps, hqs, bind, Except.bind, pure, Except.pure]
  | cons o ops ih =>
    rw [emitControlPacketOps] at hps
    rw [List.cons_append, emitControlPacketOps]
    cases ho : emitControlPacketOp o with
    | error e => simp [ho, bind, Except.bind] at hps
    | ok r =>
      cases hr : emitControlPacketOps ops with
      | error e => simp [ho, hr, bind, Except.bind] at hps
      | ok rest =>
        obtain rfl : r ++ rest = ps := by
          simpa [ho, hr, bind, Except.bind, pure, Except.pure] using hps
        simp [ih hr, bind, Except.bind, pure, Except.pure]

/-- Every packet carries one to four words. -/
def Short (ps : List NpuControlPacket) : Prop :=
  ∀ p ∈ ps, ∃ us, p.data = some us ∧ us ≠ [] ∧ us.length ≤ 4

theorem short_beats (a : Word) (ws : List Word) : Short (beats a ws) := by
  induction a, ws using beats.induct with
  | case1 a => simp [beats, Short]
  | case2 a w ws _ ih =>
    rw [beats]
    intro p hp
    rcases List.mem_cons.1 hp with rfl | hp
    · exact ⟨_, rfl, List.ne_nil_of_length_pos (length_take_four w ws).1, (length_take_four w ws).2⟩
    · exact ih p hp

/-! ### Bits -/

theorem or_eq_of_and_not {u v : Word} (h : u &&& ~~~v = 0) : u ||| v = v := by
  ext i hi
  have hbit := congrArg (fun w : Word => w[i]) h
  simp at hbit ⊢
  exact hbit

theorem maskwrite_of_alone {r value mask : Word} (h : value &&& ~~~mask = r &&& ~~~mask) :
    (r &&& ~~~mask) ||| (value &&& mask) = value := by
  rw [← h]
  ext i hi
  simp only [BitVec.getElem_or, BitVec.getElem_and, BitVec.getElem_not]
  cases value[i] <;> cases mask[i] <;> rfl

theorem maskwrite_of_merged {r value mask : Word} (hclear : r &&& mask &&& ~~~value = 0)
    (hset : value &&& ~~~mask &&& ~~~r = 0) :
    r ||| value = (r &&& ~~~mask) ||| (value &&& mask) := by
  ext i hi
  have hbit := congrArg (fun w : Word => w[i]) hclear
  have hbit' := congrArg (fun w : Word => w[i]) hset
  simp only [BitVec.getElem_or, BitVec.getElem_and, BitVec.getElem_not] at hbit hbit' ⊢
  revert hbit hbit'
  cases r[i] <;> cases value[i] <;> cases mask[i] <;> simp

/-! ### The step -/

section Step

variable {ops : List TransactionBinaryOperation} {op : TransactionBinaryOperation}
  {out : List NpuControlPacket}

theorem applyPackets_alone (hop : IsConfigOp op) (hf : Faithful ops op)
    (halone : op.cmd.opcode = .MASKWRITE → mergedWith ops op = none) :
    writeWords (execOps .zero ops) (address op) (packetWords op) =
      execOp (execOps .zero ops) op := by
  rcases hop with h | h | h
  · simp [packetWords, execOp, h]
  · simp [packetWords, execOp, h]
  · simp only [packetWords, execOp, h]
    rw [maskwrite_of_alone (hf.alone h (halone h))]

/-- An operation whose first packet is OR-ed into one with data `us`. -/
theorem writeWords_merged (rf : Registers) {us : List Word} (hop : IsConfigOp op)
    (hf : Faithful ops op) (hne : us ≠ []) (hlen : us.length ≤ 4)
    (hregs : execOps .zero ops = writeWords rf (address op) us)
    (hmerged : mergedWith ops op = some us) :
    let splitData := (packetWords op).take 4
    writeWords (writeWords rf (address op) (orData us splitData))
        (address op + BitVec.ofNat 32 (splitData.length * 4)) ((packetWords op).drop 4) =
      execOp (execOps .zero ops) op := by
  intro splitData
  have hold (j : ℕ) (hj : j < us.length) :
      execOps .zero ops (address op + BitVec.ofNat 32 (j * 4)) = us[j] := by
    rw [hregs]
    exact writeWords_of_lt _ hj (by omega)
  have hclear := hf.merged us hmerged
  -- a plain write or block write: the OR with what it overwrites is what it writes
  have hplain (hwritten : writtenBits op = BitVec.allOnes 32)
      (hexec : execOp (execOps .zero ops) op =
        writeWords (execOps .zero ops) (address op) (packetWords op)) :
      writeWords (writeWords rf (address op) (orData us splitData))
        (address op + BitVec.ofNat 32 (splitData.length * 4)) ((packetWords op).drop 4) =
          execOp (execOps .zero ops) op := by
    rw [writeWords_orData _ _ (by omega) fun j h₁ h₂ => or_eq_of_and_not ?_, ← hregs,
      ← writeWords_append, List.take_append_drop, hexec]
    have := (hclear j h₂ h₁).1
    rwa [hold j h₁, hwritten, BitVec.and_allOnes] at this
  rcases hop with h | h | h
  · exact hplain (by simp [writtenBits, h]) (by simp [execOp, packetWords, h])
  · exact hplain (by simp [writtenBits, h]) (by simp [execOp, packetWords, h])
  · obtain ⟨u, us, rfl⟩ := List.exists_cons_of_ne_nil hne
    have hu : execOps .zero ops (address op) = u := by
      have := hold 0 (by simp)
      rwa [Nat.zero_mul, BitVec.add_zero] at this
    have hwords : packetWords op = [op.cmd.value] := by simp [packetWords, h]
    have hbit : u &&& op.cmd.mask &&& ~~~op.cmd.value = 0 ∧
        op.cmd.value &&& ~~~op.cmd.mask &&& ~~~u = 0 := by
      have := hclear 0 (by simp [hwords]) (by simp)
      simpa [hu, hwords, writtenBits, h] using this
    have hor := maskwrite_of_merged hbit.1 hbit.2
    have hne (j : ℕ) (hj : j < us.length) :
        address op ≠ address op + 4 + BitVec.ofNat 32 (j * 4) :=
      ne_add_four_add _ (by simp only [List.length_cons] at hlen; omega)
    have hdata : orData (u :: us) splitData = (u ||| op.cmd.value) :: us := by
      simp only [splitData, hwords]
      cases us <;> rfl
    simp only [execOp, h, hu, hdata, hwords]
    rw [← hor, hregs]
    simp only [List.drop_succ_cons, List.drop_nil, writeWords]
    rw [update_writeWords _ _ hne, Function.update_idem]

theorem applyPackets_append (rf : Registers) (ps qs : List NpuControlPacket) :
    applyPackets rf (ps ++ qs) = applyPackets (applyPackets rf ps) qs := List.foldl_append

theorem lowerToControlPackets_eq {ps : List NpuControlPacket}
    (h : emitControlPacketOps ops = .ok ps) :
    lowerToControlPackets ops = orConsecutiveWritesOnSameAddr ps := by
  rw [lowerToControlPackets, h]
  rfl

theorem lowerToControlPackets_snoc {qs : List NpuControlPacket}
    (hlow : lowerToControlPackets ops = .ok out) (hqs : emitControlPacketOp op = .ok qs) :
    lowerToControlPackets (ops ++ [op]) = match out.getLast? with
      | none => orConsecutiveWritesOnSameAddr qs
      | some last => (orInto last qs).map (out.dropLast ++ ·) := by
  cases hps : emitControlPacketOps ops with
  | error e => simp [lowerToControlPackets, hps, bind, Except.bind] at hlow
  | ok ps =>
    rw [lowerToControlPackets_eq hps] at hlow
    rw [lowerToControlPackets_eq (emitControlPacketOps_snoc hps hqs)]
    cases ps with
    | nil =>
      cases hlow
      rfl
    | cons p ps =>
      rcases List.eq_nil_or_concat out with rfl | ⟨init, last, rfl⟩
      · exact absurd rfl (orInto_ne_nil hlow)
      · rw [List.concat_eq_append] at hlow ⊢
        simp only [List.getLast?_append, List.getLast?_singleton, List.dropLast_concat,
          Option.some_or]
        exact orInto_append hlow qs

theorem orConsecutive_beats (a : Word) (ws : List Word) :
    orConsecutiveWritesOnSameAddr (beats a ws) = .ok (beats a ws) := by
  cases ws with
  | nil => simp [beats, orConsecutiveWritesOnSameAddr]
  | cons w ws =>
    rw [beats, orConsecutiveWritesOnSameAddr, orInto_beats _ _ _ (.inl (ne_next_beat a w ws))]

theorem lower_snoc_alone (hop : IsConfigOp op) (hf : Faithful ops op) (hshort : Short out)
    (hregs : applyPackets .zero out = execOps .zero ops)
    (halone : op.cmd.opcode = .MASKWRITE → mergedWith ops op = none) :
    Short (out ++ beats (address op) (packetWords op)) ∧
      applyPackets .zero (out ++ beats (address op) (packetWords op)) =
        execOp (execOps .zero ops) op := by
  refine ⟨fun p hp => ?_, ?_⟩
  · rcases List.mem_append.1 hp with hp | hp
    · exact hshort p hp
    · exact short_beats _ _ p hp
  · rw [applyPackets_append, hregs, applyPackets_beats, applyPackets_alone hop hf halone]

theorem lower_snoc_merged {init : List NpuControlPacket} {last : NpuControlPacket} {us : List Word}
    (hop : IsConfigOp op) (hf : Faithful ops op) (hshort : Short (init ++ [last]))
    (hregs : applyPackets .zero (init ++ [last]) = execOps .zero ops)
    (haddr : last.address = address op) (hdata : last.data = some us)
    (hmerged : mergedWith ops op = some us) (hwords : packetWords op ≠ []) :
    ∃ out', orInto last (beats (address op) (packetWords op)) = .ok out' ∧
      Short (init ++ out') ∧
        applyPackets .zero (init ++ out') = execOp (execOps .zero ops) op := by
  obtain ⟨us', hdata', hne, hlen⟩ := hshort last (by simp)
  obtain rfl : us = us' := Option.some.inj (hdata ▸ hdata')
  obtain ⟨w, ws, hws⟩ := List.exists_cons_of_ne_nil hwords
  have hstep := writeWords_merged (applyPackets .zero init) hop hf hne hlen
    (by rw [← hregs, applyPackets_append]; simp [applyPackets, applyPacket, hdata, haddr]) hmerged
  have hnext : address op ≠
      address op + BitVec.ofNat 32 (((w :: ws).take 4).length * 4) := ne_next_beat _ w ws
  rw [hws] at hstep ⊢
  rw [beats, orInto_of_eq haddr hdata rfl, orInto_beats _ _ _ (.inl (by rwa [haddr]))]
  refine ⟨_, rfl, fun p hp => ?_, ?_⟩
  · rcases List.mem_append.1 hp with hp | hp
    · exact hshort p (by simp [hp])
    rcases List.mem_cons.1 hp with rfl | hp
    · have hbeat := length_take_four w ws
      have hmax := orData_length us ((w :: ws).take 4)
      exact ⟨_, rfl, List.ne_nil_of_length_pos (by omega), by omega⟩
    · exact short_beats _ _ p hp
  · rw [applyPackets_append, applyPackets, List.foldl_cons, ← applyPackets, applyPackets_beats,
      ← hstep]
    simp [applyPacket, haddr]

/-- **Lowering one more operation.** -/
theorem lower_snoc (hop : IsConfigOp op) (hf : Faithful ops op)
    (hlow : lowerToControlPackets ops = .ok out) (hshort : Short out)
    (hregs : applyPackets .zero out = execOps .zero ops) :
    ∃ out', lowerToControlPackets (ops ++ [op]) = .ok out' ∧ Short out' ∧
      applyPackets .zero out' = execOps .zero (ops ++ [op]) := by
  have hexec : execOps .zero (ops ++ [op]) = execOp (execOps .zero ops) op := by
    simp [execOps]
  rw [lowerToControlPackets_snoc hlow (emitControlPacketOp_eq hop), hexec]
  rcases List.eq_nil_or_concat out with rfl | ⟨init, last, rfl⟩
  · have hnone : mergedWith ops op = none := by simp [mergedWith, hlow]
    exact ⟨_, orConsecutive_beats _ _, lower_snoc_alone hop hf hshort hregs fun _ => hnone⟩
  · rw [List.concat_eq_append] at *
    have hmerged : mergedWith ops op = if last.address = address op then last.data else none := by
      simp [mergedWith, hlow]
    simp only [List.getLast?_append, List.getLast?_singleton, List.dropLast_concat,
      Option.some_or]
    by_cases haddr : last.address ≠ address op ∨ packetWords op = []
    · rw [orInto_beats _ _ _ haddr]
      refine ⟨init ++ last :: beats (address op) (packetWords op), rfl, ?_⟩
      have happend : init ++ last :: beats (address op) (packetWords op) =
          init ++ [last] ++ beats (address op) (packetWords op) := by simp
      rw [happend]
      refine lower_snoc_alone hop hf hshort hregs fun h => ?_
      have hwords : packetWords op ≠ [] := by simp [packetWords, h]
      rw [hmerged, if_neg (haddr.resolve_right hwords)]
    · rw [not_or, not_not] at haddr
      obtain ⟨us, hdata, -⟩ := hshort last (by simp)
      rw [if_pos haddr.1, hdata] at hmerged
      obtain ⟨out', hout, hrest⟩ :=
        lower_snoc_merged hop hf hshort hregs haddr.1 hdata hmerged haddr.2
      exact ⟨init ++ out', by rw [hout]; rfl, hrest⟩

end Step

/-- **The registers a lowered transaction leaves.** If every operation of a configuration is
faithful where it stands, its control packets leave every register as the configuration does. -/
theorem lowerToControlPackets_registers (ops : List TransactionBinaryOperation)
    (hops : ∀ op ∈ ops, IsConfigOp op)
    (hf : ∀ pre op post, ops = pre ++ op :: post → Faithful pre op) :
    ∃ packets, lowerToControlPackets ops = .ok packets ∧
      applyPackets .zero packets = execOps .zero ops := by
  suffices h : ∃ packets, lowerToControlPackets ops = .ok packets ∧ Short packets ∧
      applyPackets .zero packets = execOps .zero ops by
    obtain ⟨packets, hlow, -, hregs⟩ := h
    exact ⟨packets, hlow, hregs⟩
  induction ops using List.reverseRecOn with
  | nil => exact ⟨[], rfl, by simp [Short], rfl⟩
  | append_singleton ops op ih =>
    obtain ⟨out, hlow, hshort, hregs⟩ := ih (fun o ho => hops o (by simp [ho]))
      fun pre o post hpre => hf pre o (post ++ [op]) (by simp [hpre])
    exact lower_snoc (hops op (by simp)) (hf ops op [] rfl) hlow hshort hregs

/-! ## A faithful transaction and one that is not -/

def write (addr value : Word) : TransactionBinaryOperation :=
  ⟨{ opcode := .WRITE, regOff := addr.setWidth 64, value := value }, none, none, none⟩

def maskWrite (addr value mask : Word) : TransactionBinaryOperation :=
  ⟨{ opcode := .MASKWRITE, regOff := addr.setWidth 64, value := value, mask := mask },
    none, none, none⟩

def blockWrite (addr : Word) (payload : List Byte) : TransactionBinaryOperation :=
  ⟨{ opcode := .BLOCKWRITE, regOff := addr.setWidth 64, payload := payload,
     size := BitVec.ofNat 32 payload.length }, none, none, none⟩

/-- A write, a mask write of another bit of the same register, and a block write elsewhere. -/
def sampleConfig : List TransactionBinaryOperation :=
  [write 0x1000 5, maskWrite 0x1000 2 2, blockWrite 0x2000 (List.replicate 20 1)]

theorem sampleConfig_registers : ∃ packets, lowerToControlPackets sampleConfig = .ok packets ∧
    applyPackets .zero packets = execOps .zero sampleConfig := by
  refine lowerToControlPackets_registers sampleConfig (by simp [sampleConfig, IsConfigOp, write,
    maskWrite, blockWrite]) fun pre op post h => ?_
  rcases pre with _ | ⟨a, _ | ⟨b, _ | ⟨c, pre⟩⟩⟩
  · obtain ⟨rfl, -⟩ := List.cons.inj h
    exact ⟨by decide, by rintro us ⟨⟩⟩
  · obtain ⟨rfl, h₁⟩ := List.cons.inj h
    obtain ⟨rfl, -⟩ := List.cons.inj h₁
    refine ⟨by decide, fun us hus j hj _ => ?_⟩
    obtain rfl : j = 0 := by simpa [packetWords, maskWrite] using hj
    simp [execOps, execOp, write, maskWrite, packetWords, writtenBits, address, writeWords]
  · obtain ⟨rfl, h₁⟩ := List.cons.inj h
    obtain ⟨rfl, h₂⟩ := List.cons.inj h₁
    obtain ⟨rfl, -⟩ := List.cons.inj h₂
    exact ⟨by decide, by rintro us ⟨⟩⟩
  · simp [sampleConfig] at h

/-- Two writes to one register: the packets leave the OR of their values. -/
theorem overwrite_not_kept :
    ∃ packets, lowerToControlPackets [write 0x1000 1, write 0x1000 2] = .ok packets ∧
      applyPackets .zero packets 0x1000 = 3 ∧
      execOps .zero [write 0x1000 1, write 0x1000 2] 0x1000 = 2 :=
  ⟨_, rfl, rfl, rfl⟩

end MlirAie.CtrlPkt
