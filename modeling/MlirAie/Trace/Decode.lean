import MlirAie.Lib.While

/-!
# Decoding trace bytes

A trace is a stream of bytes, cut into opcodes of one to eight bytes. Two decoders read it, one for
each trace mode; the first is an endless loop of mask tests that leaves only by an index past the
end.

* `Command`, `Opcode`: what is decoded, and from which bytes;
* **`convertToCommands`**, **`decodeEventPcStream`**: the decoders, on fuel;
* **`decoders_end_iff`**: both end exactly if no opcode is expected at a byte that is none.
-/

namespace MlirAie.Trace

open Lib

abbrev Byte := Fin 256

local instance neZeroByte : NeZero (256 : ℕ) := ⟨by decide⟩

/-! ## Commands -/

/-- A decoded command; `form` is the digit of its name. -/
inductive Command
  | start (timerValue : ℕ)
  | single (form event cycles : ℕ)
  | multiple (form : ℕ) (events : List ℕ) (cycles : ℕ)
  | repeated (form repeats : ℕ)
  | eventSync
  | eventPC (events : List ℕ) (pc : ℕ)
deriving DecidableEq

def eventsOf (events : ℕ) : List ℕ := (List.range 8).filter fun i => events >>> i &&& 1 ≠ 0

/-- A mask test, the bytes it consumes, and what it makes of them; bytes that are missing are an
index error where they are read. -/
structure Opcode where
  mask : ℕ
  value : ℕ
  length : ℕ
  decode : List Byte → Option (Option Command)
  length_pos : 0 < length
  decode_isSome : ∀ run : List Byte, run.length = length → (decode run).isSome

def Opcode.test (op : Opcode) (b : Byte) : Bool := b.val &&& op.mask = op.value

/-- `zero`: the timer of a start is not read. -/
def decodeStart (zero : Bool) (run : List Byte) : Option (Option Command) :=
  if zero then some (some (.start 0))
  else if run.length < 8 then none
  else some (some (.start
    ((List.range 7).map fun i => (run.getD (i + 1) 0).val * 256 ^ (6 - i)).sum))

def startOpcode (zero : Bool) (value : ℕ) : Opcode where
  mask := 0b11111011
  value := value
  length := 8
  decode := decodeStart zero
  length_pos := by decide
  decode_isSome run h := by
    cases zero <;> simp [decodeStart, h]

def skipOpcode (mask value length : ℕ) (h : 0 < length) : Opcode where
  mask := mask
  value := value
  length := length
  decode _ := some none
  length_pos := h
  decode_isSome _ _ := rfl

/-- A command of one byte. -/
def opcode1 (mask value : ℕ) (command : ℕ → Command) : Opcode where
  mask := mask
  value := value
  length := 1
  decode
    | b :: _ => some (some (command b))
    | _ => none
  length_pos := by decide
  decode_isSome run h := by
    obtain ⟨b, rfl⟩ := List.length_eq_one_iff.1 h
    rfl

def opcode2 (mask value : ℕ) (command : ℕ → ℕ → Command) : Opcode where
  mask := mask
  value := value
  length := 2
  decode
    | b :: b1 :: _ => some (some (command b b1))
    | _ => none
  length_pos := Nat.succ_pos 1
  decode_isSome run h := by
    obtain ⟨b, b1, rfl⟩ := List.length_eq_two.1 h
    rfl

def opcode3 (mask value : ℕ) (command : ℕ → ℕ → ℕ → Command) : Opcode where
  mask := mask
  value := value
  length := 3
  decode
    | b :: b1 :: b2 :: _ => some (some (command b b1 b2))
    | _ => none
  length_pos := by decide
  decode_isSome run h := by
    obtain ⟨b, b1, b2, rfl⟩ := List.length_eq_three.1 h
    rfl

def opcode4 (mask value : ℕ) (command : ℕ → ℕ → ℕ → ℕ → Command) : Opcode where
  mask := mask
  value := value
  length := 4
  decode
    | b :: b1 :: b2 :: b3 :: _ => some (some (command b b1 b2 b3))
    | _ => none
  length_pos := by decide
  decode_isSome run h := by
    match run, h with
    | [b, b1, b2, b3], _ => rfl

/-! ## Opcodes -/

def single0 : Opcode := opcode1 0b10000000 0b00000000 fun b =>
  .single 0 (b >>> 4 &&& 0b111) (b &&& 0b1111)

def single1 : Opcode := opcode2 0b11100000 0b10000000 fun b b1 =>
  .single 1 (b >>> 2 &&& 0b111) ((b &&& 0b11) * 256 + b1)

def single2 : Opcode := opcode3 0b11100000 0b10100000 fun b b1 b2 =>
  .single 2 (b >>> 2 &&& 0b111) ((b &&& 0b11) * 256 * 256 + b1 * 256 + b2)

def multiple0 : Opcode := opcode2 0b11110000 0b11000000 fun b b1 =>
  .multiple 0 (eventsOf ((b &&& 0b1111) <<< 4 + b1 >>> 4)) (b1 &&& 0b1111)

def multiple1 : Opcode := opcode3 0b11111100 0b11010000 fun b b1 b2 =>
  .multiple 1 (eventsOf ((b &&& 0b11) <<< 6 + b1 >>> 2)) ((b1 &&& 0b11) <<< 8 + b2)

def multiple2 : Opcode := opcode4 0b11111100 0b11010100 fun b b1 b2 b3 =>
  .multiple 2 (eventsOf ((b &&& 0b11) <<< 6 + b1 >>> 2)) ((b1 &&& 0b11) <<< 16 + b2 <<< 8 + b3)

def repeat0 : Opcode := opcode1 0b11110000 0b11100000 fun b => .repeated 0 (b &&& 0b1111)

def repeat1 : Opcode := opcode2 0b11111100 0b11011000 fun b b1 =>
  .repeated 1 ((b &&& 0b11) * 256 + b1)

def dontCare : Opcode := skipOpcode 0b11111100 0b11011100 4 (by decide)

def eventSync : Opcode := opcode1 0b11111111 0b11111111 fun _ => .eventSync

def eventPC : Opcode := opcode4 0b11111100 0b11000100 fun b b1 b2 b3 =>
  .eventPC (eventsOf ((b &&& 0b11) <<< 6 ||| b1 >>> 2)) ((b2 &&& 0b00111111) <<< 8 ||| b3)

def eventTimeOpcodes (zero : Bool) : List Opcode :=
  [startOpcode zero 0b11110000, dontCare, single0, single1, single2, multiple0, multiple1,
    multiple2, repeat0, repeat1, skipOpcode 0b11111111 0b11111110 1 (by decide), eventSync]

def eventPcOpcodes (zero : Bool) : List Opcode :=
  [startOpcode zero 0b11110001, eventSync, dontCare, repeat0, repeat1, eventPC]

/-! ## Decoders -/

structure DecodeState where
  cursor : ℕ
  commands : List Command

variable (bytes : List Byte)

/-- The bytes of an opcode at a place, as far as there are any. -/
def runOf (cursor : ℕ) (op : Opcode) : List Byte := (bytes.drop cursor).take op.length

def consume (op : Opcode) (s : DecodeState) : Except DecodeState DecodeState :=
  match op.decode (runOf bytes s.cursor op) with
  | none => .error s
  | some com => .ok ⟨s.cursor + op.length, s.commands ++ com.toList⟩

/-- One mask test of the loop's body, at wherever the tests before have led. -/
def testOpcode (s : DecodeState) (op : Opcode) : Except DecodeState DecodeState :=
  match bytes[s.cursor]? with
  | none => .error s
  | some b => if op.test b then consume bytes op s else .ok s

/-- `while True`, with one test behind the other. -/
def eventTimeLoop (zero : Bool) : Loop DecodeState DecodeState where
  guard _ := true
  body s := (eventTimeOpcodes zero).foldlM (testOpcode bytes) s

/-- `while cursor < n`, each test followed by `continue`; a byte that is no opcode is skipped. -/
def eventPcLoop (zero : Bool) : Loop DecodeState DecodeState where
  guard s := s.cursor < bytes.length
  body s :=
    match bytes[s.cursor]? with
    | none => .error s
    | some b =>
      match (eventPcOpcodes zero).find? (·.test b) with
      | some op => consume bytes op s
      | none => .ok ⟨s.cursor + 1, s.commands⟩

/-- The commands where a loop ended, by its guard or by an index error. -/
def commandsOf : Except DecodeState DecodeState → List Command
  | .ok s => s.commands
  | .error s => s.commands

/-- `convert_to_commands` on one stream; `none` is out of fuel. -/
def convertToCommands (zero : Bool) (fuel : ℕ) : Option (List Command) :=
  ((eventTimeLoop bytes zero).run fuel ⟨0, []⟩).map commandsOf

/-- `decode_event_pc_stream`; `none` is out of fuel. -/
def decodeEventPcStream (zero : Bool) (fuel : ℕ) : Option (List Command) :=
  ((eventPcLoop bytes zero).run fuel ⟨0, []⟩).map commandsOf

/-! ## Runs of bytes -/

/-- Opcodes at places of the stream, each where the one before ended. -/
inductive Opcodes (next : Byte → Option Opcode) : ℕ → List (ℕ × Opcode) → ℕ → Prop
  | nil (i : ℕ) : Opcodes next i [] i
  | cons {i j : ℕ} {b : Byte} {op : Opcode} {ops : List (ℕ × Opcode)} (hb : bytes[i]? = some b)
      (hop : next b = some op) (hrest : Opcodes next (i + op.length) ops j) :
      Opcodes next i ((i, op) :: ops) j

/-- **The commands come from runs of bytes**, each from where the opcode before it ended. -/
def FromRuns (next : Byte → Option Opcode) (commands : List Command) : Prop :=
  ∃ ops j, Opcodes bytes next 0 ops j ∧
    commands = ops.filterMap fun p => (p.2.decode (runOf bytes p.1 p.2)).join

def eventTimeOpcode (zero : Bool) (b : Byte) : Option Opcode :=
  (eventTimeOpcodes zero).find? (·.test b)

def eventPcOpcode (zero : Bool) (b : Byte) : Option Opcode :=
  ((eventPcOpcodes zero).find? (·.test b)).or (some (skipOpcode 0 0 1 (by decide)))

def Decodes (decoder : ℕ → Option (List Command)) (next : Byte → Option Opcode) : Prop :=
  (∃ fuel commands, decoder fuel = some commands) ∧
    ∀ fuel commands, decoder fuel = some commands → FromRuns bytes next commands

/-- Wherever the opcodes of an event-time trace lead, there is an opcode, or the end. -/
def OpcodesOnly (zero : Bool) : Prop :=
  ∀ ops j b, Opcodes bytes (eventTimeOpcode zero) 0 ops j → bytes[j]? = some b →
    (eventTimeOpcode zero b).isSome

variable {bytes}

/-! ## Tests -/

def Opcode.Apart (op op' : Opcode) : Prop := op.value &&& op'.mask ≠ op'.value &&& op.mask

theorem Opcode.Apart.test_eq_false {op op' : Opcode} (h : op.Apart op') {b : Byte}
    (hb : op.test b = true) : op'.test b = false := by
  unfold Opcode.test at *
  rw [decide_eq_true_eq] at hb
  rw [decide_eq_false_iff_not]
  intro hb'
  apply h
  rw [← hb, ← hb', Nat.land_assoc, Nat.land_assoc, Nat.land_comm op.mask]

theorem find?_eq_some_of_test {ops : List Opcode} (h : ops.Pairwise Opcode.Apart) {op : Opcode}
    (hop : op ∈ ops) {b : Byte} (hb : op.test b = true) : ops.find? (·.test b) = some op := by
  induction h with
  | nil => cases hop
  | @cons op' ops hfirst _ ih =>
    rcases List.mem_cons.1 hop with rfl | hop
    · exact List.find?_cons_of_pos hb
    · have hfalse : op'.test b = false := by
        by_contra htest
        have := (hfirst op hop).test_eq_false (Bool.of_not_eq_false htest)
        rw [hb] at this
        cases this
      rw [List.find?_cons_of_neg (by simp [hfalse])]
      exact ih hop

theorem eventTimeOpcodes_apart (zero : Bool) :
    (eventTimeOpcodes zero).Pairwise Opcode.Apart := by
  unfold Opcode.Apart
  cases zero <;> decide

/-! ## Runs -/

section Runs

variable {next : Byte → Option Opcode}

theorem Opcodes.snoc {i j : ℕ} {ops : List (ℕ × Opcode)} {b : Byte} {op : Opcode}
    (h : Opcodes bytes next i ops j) (hb : bytes[j]? = some b) (hop : next b = some op) :
    Opcodes bytes next i (ops ++ [(j, op)]) (j + op.length) := by
  induction h with
  | nil i => exact .cons hb hop (.nil _)
  | cons hb' hop' _ ih => exact .cons hb' hop' (ih hb)

theorem Opcodes.le {i j : ℕ} {ops : List (ℕ × Opcode)} (h : Opcodes bytes next i ops j) :
    i ≤ j := by
  induction h with
  | nil i => exact le_rfl
  | cons _ _ _ ih => omega

variable (bytes next) in
/-- The commands so far come from runs of bytes up to the cursor. -/
def Decoded (s : DecodeState) : Prop :=
  ∃ ops, Opcodes bytes next 0 ops s.cursor ∧
    s.commands = ops.filterMap fun p => (p.2.decode (runOf bytes p.1 p.2)).join

theorem decoded_init : Decoded bytes next ⟨0, []⟩ := ⟨[], .nil 0, rfl⟩

theorem Decoded.consume {s t : DecodeState} {b : Byte} {op : Opcode} (h : Decoded bytes next s)
    (hb : bytes[s.cursor]? = some b) (hop : next b = some op)
    (ht : Trace.consume bytes op s = .ok t) : Decoded bytes next t := by
  obtain ⟨ops, hops, hcommands⟩ := h
  unfold Trace.consume at ht
  cases hdecode : op.decode (runOf bytes s.cursor op) with
  | none =>
    rw [hdecode] at ht
    cases ht
  | some com =>
    rw [hdecode] at ht
    obtain rfl := Except.ok.inj ht
    refine ⟨_, hops.snoc hb hop, ?_⟩
    cases com <;> simp [hcommands, hdecode]

end Runs

theorem consume_error {op : Opcode} {s e : DecodeState} (h : consume bytes op s = .error e) :
    e = s := by
  unfold consume at h
  cases hdecode : op.decode (runOf bytes s.cursor op) with
  | none =>
    rw [hdecode] at h
    exact (Except.error.inj h).symm
  | some com =>
    rw [hdecode] at h
    cases h

theorem consume_cursor {op : Opcode} {s t : DecodeState} (h : consume bytes op s = .ok t) :
    t.cursor = s.cursor + op.length := by
  unfold consume at h
  cases hdecode : op.decode (runOf bytes s.cursor op) with
  | none =>
    rw [hdecode] at h
    cases h
  | some com =>
    rw [hdecode] at h
    exact (congrArg DecodeState.cursor (Except.ok.inj h)).symm

/-- Where the bytes of an opcode are all there, it is consumed. -/
theorem exists_consume {op : Opcode} {s : DecodeState}
    (h : s.cursor + op.length ≤ bytes.length) : ∃ t, consume bytes op s = .ok t := by
  have hlen : (runOf bytes s.cursor op).length = op.length := by
    rw [runOf, List.length_take, List.length_drop]
    omega
  obtain ⟨com, hcom⟩ := Option.isSome_iff_exists.1 (op.decode_isSome _ hlen)
  exact ⟨_, by rw [consume, hcom]⟩

/-! ## Event-time traces -/

variable {zero : Bool}

theorem eventTimeOpcode_eq {op : Opcode} (hop : op ∈ eventTimeOpcodes zero) {b : Byte}
    (hb : op.test b = true) : eventTimeOpcode zero b = some op :=
  find?_eq_some_of_test (eventTimeOpcodes_apart zero) hop hb

theorem testOpcode_cases {op : Opcode} {s : DecodeState} {r : Except DecodeState DecodeState}
    (h : testOpcode bytes s op = r) : r = .error s ∨
      (∃ b, bytes[s.cursor]? = some b ∧ op.test b = true ∧ consume bytes op s = r) ∨
      (∃ b, bytes[s.cursor]? = some b ∧ op.test b = false) ∧ r = .ok s := by
  unfold testOpcode at h
  cases hb : bytes[s.cursor]? with
  | none =>
    rw [hb] at h
    exact Or.inl h.symm
  | some b =>
    rw [hb] at h
    cases htest : op.test b with
    | true =>
      simp only [htest, if_pos] at h
      exact Or.inr (Or.inl ⟨b, rfl, htest, h⟩)
    | false =>
      simp only [htest, Bool.false_eq_true, if_false] at h
      exact Or.inr (Or.inr ⟨⟨b, rfl, htest⟩, h.symm⟩)

theorem Decoded.testOpcode {op : Opcode} (hop : op ∈ eventTimeOpcodes zero) {s : DecodeState}
    (h : Decoded bytes (eventTimeOpcode zero) s) :
    (∀ t, Trace.testOpcode bytes s op = .ok t → Decoded bytes (eventTimeOpcode zero) t) ∧
      ∀ e, Trace.testOpcode bytes s op = .error e → Decoded bytes (eventTimeOpcode zero) e := by
  constructor
  · intro t ht
    rcases testOpcode_cases ht with heq | ⟨b, hb, htest, hconsume⟩ | ⟨-, heq⟩
    · cases heq
    · exact h.consume hb (eventTimeOpcode_eq hop htest) hconsume
    · exact Except.ok.inj heq ▸ h
  · intro e he
    rcases testOpcode_cases he with heq | ⟨b, hb, htest, hconsume⟩ | ⟨-, heq⟩
    · exact Except.error.inj heq ▸ h
    · exact consume_error hconsume ▸ h
    · cases heq

theorem Decoded.tests {ops : List Opcode} (hops : ∀ op ∈ ops, op ∈ eventTimeOpcodes zero)
    {s : DecodeState} (h : Decoded bytes (eventTimeOpcode zero) s) :
    (∀ t, ops.foldlM (Trace.testOpcode bytes) s = .ok t →
        Decoded bytes (eventTimeOpcode zero) t) ∧
      ∀ e, ops.foldlM (Trace.testOpcode bytes) s = .error e →
        Decoded bytes (eventTimeOpcode zero) e := by
  induction ops generalizing s with
  | nil => exact ⟨fun t ht => Except.ok.inj ht ▸ h, fun e he => by cases he⟩
  | cons op ops ih =>
    have hfirst := h.testOpcode (hops op List.mem_cons_self)
    have hrest := fun op' hop' => hops op' (List.mem_cons_of_mem op hop')
    rw [List.foldlM_cons]
    cases htest : Trace.testOpcode bytes s op with
    | error e =>
      refine ⟨fun t ht => ?_, fun e' he' => ?_⟩
      · cases ht
      · have he' : (Except.error e : Except DecodeState DecodeState) = .error e' := he'
        exact Except.error.inj he' ▸ hfirst.2 e htest
    | ok t => exact ih hrest (hfirst.1 t htest)

/-- A pass does not go back, and goes on where one of its tests holds. -/
theorem tests_cursor {ops : List Opcode} {s t : DecodeState}
    (h : ops.foldlM (testOpcode bytes) s = .ok t) : s.cursor ≤ t.cursor ∧
      ∀ b, bytes[s.cursor]? = some b → (∃ op ∈ ops, op.test b = true) → s.cursor < t.cursor := by
  induction ops generalizing s with
  | nil =>
    obtain rfl := Except.ok.inj h
    refine ⟨le_rfl, fun b _ hop => ?_⟩
    obtain ⟨op, hop, -⟩ := hop
    cases hop
  | cons op ops ih =>
    rw [List.foldlM_cons] at h
    cases htest : testOpcode bytes s op with
    | error e =>
      rw [htest] at h
      cases h
    | ok u =>
      rw [htest] at h
      obtain ⟨hle, hlt⟩ := ih h
      rcases testOpcode_cases htest with heq | ⟨b, hb, hop, hconsume⟩ | ⟨⟨b, hb, hop⟩, heq⟩
      · cases heq
      · have hcursor := consume_cursor hconsume
        have hpos := op.length_pos
        exact ⟨by omega, fun _ _ _ => by omega⟩
      · obtain rfl := Except.ok.inj heq
        refine ⟨hle, fun b' hb' hop' => hlt b' hb' ?_⟩
        obtain ⟨op', hop', htest'⟩ := hop'
        rcases List.mem_cons.1 hop' with rfl | hop'
        · rw [Option.some_inj.1 (hb'.symm.trans hb), hop] at htest'
          cases htest'
        · exact ⟨op', hop', htest'⟩

theorem convertToCommands_fromRuns {fuel : ℕ} {commands : List Command}
    (h : convertToCommands bytes zero fuel = some commands) :
    FromRuns bytes (eventTimeOpcode zero) commands := by
  obtain ⟨r, hrun, rfl⟩ := Option.map_eq_some_iff.1 h
  have hself : ∀ op ∈ eventTimeOpcodes zero, op ∈ eventTimeOpcodes zero := fun _ hop => hop
  refine Loop.run_result (P := Decoded bytes (eventTimeOpcode zero))
    (Q := fun r => FromRuns bytes (eventTimeOpcode zero) (commandsOf r)) ?_ ?_ ?_
    decoded_init hrun
  · rintro s ⟨ops, hops, hcommands⟩ -
    exact ⟨ops, _, hops, hcommands⟩
  · intro s e hs he
    obtain ⟨ops, hops, hcommands⟩ := (hs.tests hself).2 e he
    exact ⟨ops, _, hops, hcommands⟩
  · rintro s t hs ⟨-, ht⟩
    exact (hs.tests hself).1 t ht

/-- **With opcodes only the loop ends**: each pass consumes a byte. -/
theorem convertToCommands_ends (h : OpcodesOnly bytes zero) :
    ∃ fuel commands, convertToCommands bytes zero fuel = some commands := by
  have hreach : ∀ s, (eventTimeLoop bytes zero).Reaches ⟨0, []⟩ s →
      Decoded bytes (eventTimeOpcode zero) s := by
    intro s hs
    induction hs with
    | refl => exact decoded_init
    | tail _ hstep ih => exact (ih.tests fun _ hop => hop).1 _ hstep.2
  have hmeasure : ∀ s t, (eventTimeLoop bytes zero).Reaches ⟨0, []⟩ s →
      (eventTimeLoop bytes zero).Steps s t →
      bytes.length - t.cursor < bytes.length - s.cursor := by
    rintro s t hs ⟨-, ht⟩
    obtain ⟨ops, hops, -⟩ := hreach s hs
    have htests : (eventTimeOpcodes zero).foldlM (testOpcode bytes) s = .ok t := ht
    cases hb : bytes[s.cursor]? with
    | none =>
      have herror : (eventTimeOpcodes zero).foldlM (testOpcode bytes) s = .error s := by
        rw [eventTimeOpcodes, List.foldlM_cons, testOpcode, hb]
        rfl
      rw [herror] at htests
      cases htests
    | some b =>
      obtain ⟨op, hop⟩ := Option.isSome_iff_exists.1 (h ops s.cursor b hops hb)
      have hlt := (tests_cursor htests).2 b hb
        ⟨op, List.mem_of_find?_eq_some hop, by simpa using List.find?_some hop⟩
      have hbound := (List.getElem?_eq_some_iff.1 hb).1
      omega
  obtain ⟨r, hr⟩ := Loop.halts_of_measure (fun s : DecodeState => bytes.length - s.cursor) hmeasure
  exact ⟨_, _, by rw [convertToCommands, hr]; rfl⟩

theorem exists_testOpcode {op : Opcode} (hop : op ∈ eventTimeOpcodes zero) {j : ℕ} {b : Byte}
    (hb : bytes[j]? = some b) (hnone : eventTimeOpcode zero b = none) {s : DecodeState}
    (h : ∃ ops, Opcodes bytes (eventTimeOpcode zero) s.cursor ops j) :
    ∃ t, testOpcode bytes s op = .ok t ∧
      ∃ ops, Opcodes bytes (eventTimeOpcode zero) t.cursor ops j := by
  obtain ⟨ops, hops⟩ := h
  have hbound := (List.getElem?_eq_some_iff.1 hb).1
  unfold testOpcode
  cases hops with
  | nil _ =>
    have hfalse : op.test b = false := by
      by_contra htest
      rw [eventTimeOpcode_eq hop (Bool.of_not_eq_false htest)] at hnone
      cases hnone
    rw [hb]
    exact ⟨s, by simp [hfalse], [], .nil _⟩
  | @cons _ _ b' op' ops hb' hop' hrest =>
    rw [hb']
    cases htest : op.test b' with
    | false => exact ⟨s, by simp [htest], _, .cons hb' hop' hrest⟩
    | true =>
      rw [eventTimeOpcode_eq hop htest] at hop'
      obtain rfl := Option.some_inj.1 hop'
      obtain ⟨t, ht⟩ := exists_consume (s := s) (hrest.le.trans hbound.le)
      exact ⟨t, by simpa [htest] using ht, ops, consume_cursor ht ▸ hrest⟩

theorem exists_tests {ops : List Opcode} (hops : ∀ op ∈ ops, op ∈ eventTimeOpcodes zero) {j : ℕ}
    {b : Byte} (hb : bytes[j]? = some b) (hnone : eventTimeOpcode zero b = none)
    {s : DecodeState} (h : ∃ ops, Opcodes bytes (eventTimeOpcode zero) s.cursor ops j) :
    ∃ t, ops.foldlM (testOpcode bytes) s = .ok t ∧
      ∃ ops, Opcodes bytes (eventTimeOpcode zero) t.cursor ops j := by
  induction ops generalizing s with
  | nil => exact ⟨s, rfl, h⟩
  | cons op ops ih =>
    obtain ⟨t, ht, hnext⟩ := exists_testOpcode (hops op List.mem_cons_self) hb hnone h
    rw [List.foldlM_cons, ht]
    exact ih (fun op' hop' => hops op' (List.mem_cons_of_mem op hop')) hnext

/-- **A byte that is no opcode is never passed.** -/
theorem convertToCommands_diverges {ops : List (ℕ × Opcode)} {j : ℕ} {b : Byte}
    (hops : Opcodes bytes (eventTimeOpcode zero) 0 ops j) (hb : bytes[j]? = some b)
    (hnone : eventTimeOpcode zero b = none) (fuel : ℕ) :
    convertToCommands bytes zero fuel = none := by
  have hrun : (eventTimeLoop bytes zero).run fuel ⟨0, []⟩ = none := by
    refine Loop.diverges (P := fun s : DecodeState =>
      ∃ ops, Opcodes bytes (eventTimeOpcode zero) s.cursor ops j) ?_ .refl ⟨ops, hops⟩ fuel
    intro s hs
    obtain ⟨t, ht, hnext⟩ := exists_tests (fun _ hop => hop) hb hnone hs
    exact ⟨t, ⟨rfl, ht⟩, hnext⟩
  rw [convertToCommands, hrun]
  rfl

/-! ## Event-PC traces -/

variable (zero) in
theorem eventPcLoop_body {s : DecodeState} {b : Byte} (hb : bytes[s.cursor]? = some b) :
    ∃ op, eventPcOpcode zero b = some op ∧
      (eventPcLoop bytes zero).body s = consume bytes op s := by
  unfold eventPcLoop eventPcOpcode
  simp only [hb]
  cases hop : (eventPcOpcodes zero).find? (·.test b) with
  | some op => exact ⟨op, rfl, rfl⟩
  | none =>
    refine ⟨_, rfl, ?_⟩
    simp [consume, skipOpcode]

theorem decodeEventPcStream_fromRuns {fuel : ℕ} {commands : List Command}
    (h : decodeEventPcStream bytes zero fuel = some commands) :
    FromRuns bytes (eventPcOpcode zero) commands := by
  obtain ⟨r, hrun, rfl⟩ := Option.map_eq_some_iff.1 h
  refine Loop.run_result (P := Decoded bytes (eventPcOpcode zero))
    (Q := fun r => FromRuns bytes (eventPcOpcode zero) (commandsOf r)) ?_ ?_ ?_
    decoded_init hrun
  · rintro s ⟨ops, hops, hcommands⟩ -
    exact ⟨ops, _, hops, hcommands⟩
  · intro s e hs he
    have heq : e = s := by
      cases hb : bytes[s.cursor]? with
      | none =>
        simp only [eventPcLoop, hb] at he
        exact (Except.error.inj he).symm
      | some b =>
        obtain ⟨op, -, hbody⟩ := eventPcLoop_body zero hb
        exact consume_error (hbody ▸ he)
    obtain ⟨ops, hops, hcommands⟩ := hs
    exact heq ▸ ⟨ops, _, hops, hcommands⟩
  · rintro s t hs ⟨-, ht⟩
    cases hb : bytes[s.cursor]? with
    | none =>
      simp only [eventPcLoop, hb] at ht
      cases ht
    | some b =>
      obtain ⟨op, hop, hbody⟩ := eventPcLoop_body zero hb
      exact hs.consume hb hop (hbody ▸ ht)

theorem decodeEventPcStream_ends :
    ∃ fuel commands, decodeEventPcStream bytes zero fuel = some commands := by
  have hmeasure : ∀ s t, (eventPcLoop bytes zero).Reaches ⟨0, []⟩ s →
      (eventPcLoop bytes zero).Steps s t →
      bytes.length - t.cursor < bytes.length - s.cursor := by
    rintro s t - ⟨hguard, ht⟩
    have hlt : s.cursor < bytes.length := by simpa [eventPcLoop] using hguard
    obtain ⟨op, -, hbody⟩ := eventPcLoop_body zero (List.getElem?_eq_getElem hlt)
    have hcursor := consume_cursor (hbody ▸ ht)
    have hpos := op.length_pos
    omega
  obtain ⟨r, hr⟩ := Loop.halts_of_measure (fun s : DecodeState => bytes.length - s.cursor) hmeasure
  exact ⟨_, _, by rw [decodeEventPcStream, hr]; rfl⟩

/-- **Both decoders end**, with commands from runs of bytes, exactly if the event-time decoder meets
no byte that is no opcode where it expects one. -/
theorem decoders_end_iff (bytes : List Byte) (zero : Bool) :
    (Decodes bytes (convertToCommands bytes zero) (eventTimeOpcode zero) ∧
        Decodes bytes (decodeEventPcStream bytes zero) (eventPcOpcode zero)) ↔
      OpcodesOnly bytes zero := by
  constructor
  · rintro ⟨⟨⟨fuel, commands, hends⟩, -⟩, -⟩ ops j b hops hb
    by_contra hnone
    rw [Bool.not_eq_true, Option.isSome_eq_false_iff, Option.isNone_iff_eq_none] at hnone
    rw [convertToCommands_diverges hops hb hnone fuel] at hends
    cases hends
  · intro h
    exact ⟨⟨convertToCommands_ends h, fun _ _ => convertToCommands_fromRuns⟩,
      decodeEventPcStream_ends, fun _ _ => decodeEventPcStream_fromRuns⟩

/-- The start of an event-PC trace is no opcode of an event-time trace. -/
theorem eventPcStart_diverges :
    ¬ Decodes [0xF1, 0, 0, 0, 0, 0, 0, 0] (convertToCommands [0xF1, 0, 0, 0, 0, 0, 0, 0] true)
      (eventTimeOpcode true) := by
  rintro ⟨⟨fuel, commands, hends⟩, -⟩
  rw [convertToCommands_diverges (.nil 0) rfl (by decide)] at hends
  cases hends

end MlirAie.Trace
