import MlirAie.Target.Model

/-!
# The task queue of a DMA channel

What the hardware does with the tasks pushed onto a channel: tasks run in the order they were
pushed, one at a time, and a task that finishes may leave a completion token. What the compiler
keeps of the queue along one path, and why it covers the hardware: `Describes` relates a state to
the channels it stands for, and every operation of the model keeps it over what the hardware does
meanwhile.

* `Channel`: the queue, the running task and the tokens not yet consumed;
* `Channel.occupying`: what the occupancy counts, with or without the running task;
* **`describes_push`, `describes_awaitToken`, `describes_noteSpaceGuaranteed`**.
-/

namespace MlirAie.Queue

/-! ## The hardware -/

/-- One channel: its queued tasks, oldest first, the running one, and its tokens. -/
structure Channel (α : Type*) where
  queued : List α := []
  running : Option α := none
  tokens : ℕ := 0

namespace Channel

variable {α : Type*} (ch : Channel α)

/-- The tasks that have not finished, oldest first. -/
@[grind =] def unfinished : List α := ch.running.toList ++ ch.queued

/-- The tasks the occupancy counts: whether the running one is among them depends on the target. -/
def occupying (countsRunning : Bool) : List α := if countsRunning then ch.unfinished else ch.queued

def push (a : α) : Channel α := { ch with queued := ch.queued ++ [a] }

/-- A step of the hardware's own: the oldest task starts, or the running one finishes. -/
inductive Drain (tok : α → Bool) : Channel α → Channel α → Prop
  | start (a : α) (queued : List α) (tokens : ℕ) :
      Drain tok ⟨a :: queued, none, tokens⟩ ⟨queued, some a, tokens⟩
  | finish (a : α) (queued : List α) (tokens : ℕ) :
      Drain tok ⟨queued, some a, tokens⟩ ⟨queued, none, tokens + (tok a).toNat⟩

def tokensToCome (tok : α → Bool) : ℕ := ch.tokens + ch.unfinished.countP tok

@[simp] theorem unfinished_push (a : α) : (ch.push a).unfinished = ch.unfinished ++ [a] := by
  simp [unfinished, push]

@[simp] theorem occupying_push (c : Bool) (a : α) :
    (ch.push a).occupying c = ch.occupying c ++ [a] := by
  cases c <;> simp [occupying, unfinished, push]

theorem occupying_suffix_unfinished (c : Bool) : ch.occupying c <:+ ch.unfinished := by
  cases c with
  | true => exact List.suffix_rfl
  | false => exact List.suffix_append _ _

variable {ch} {ch' : Channel α} {tok : α → Bool}

theorem Drain.unfinished_suffix (h : Drain tok ch ch') : ch'.unfinished <:+ ch.unfinished := by
  cases h with
  | start a queued tokens => exact List.suffix_rfl
  | finish a queued tokens => exact List.suffix_append [a] queued

theorem Drain.occupying_suffix (h : Drain tok ch ch') (c : Bool) :
    ch'.occupying c <:+ ch.occupying c := by
  cases c with
  | true => exact h.unfinished_suffix
  | false =>
    cases h with
    | start a queued tokens => exact List.suffix_append [a] queued
    | finish => exact List.suffix_rfl

theorem Drain.tokensToCome_eq (h : Drain tok ch ch') : ch'.tokensToCome tok = ch.tokensToCome tok := by
  cases h with
  | start => rfl
  | finish a queued tokens =>
    cases ha : tok a <;> simp [tokensToCome, unfinished, ha]
    omega

end Channel

theorem suffix_of_countP_lt {α : Type*} (tok : α → Bool) {older newer l : List α} {a : α}
    (hl : l <:+ older ++ a :: newer) (holder : ∀ b ∈ older, tok b = false)
    (hcount : l.countP tok < (older ++ a :: newer).countP tok) : l <:+ newer := by
  have hzero : older.countP tok = 0 := List.countP_eq_zero.2 fun b hb => by simp [holder b hb]
  rw [List.countP_append, hzero, Nat.zero_add] at hcount
  rcases List.suffix_or_suffix_of_suffix hl (List.suffix_append older (a :: newer)) with h | h
  · rcases List.suffix_cons_iff.1 h with rfl | h
    · exact absurd hcount (lt_irrefl _)
    · exact h
  · have hle : (a :: newer).countP tok ≤ l.countP tok := h.sublist.countP_le
    omega

/-! ## The status register -/

/-- The position of the lowest set bit, and the width of zero. -/
def countr_zero (x : BitVec 32) : ℕ := x.ctz.toNat

/-- A value of a channel's status register: its occupancy field holds `occupancy`. -/
def getDmaStatus (tm : AIETargetModel) (occupancy : ℕ) (reg : BitVec 32) : Prop :=
  (reg &&& tm.getDmaTaskQueueSizeMask).toNat =
    occupancy <<< countr_zero tm.getDmaTaskQueueSizeMask

theorem getDmaStatus.field_eq {tm : AIETargetModel} {occupancy : ℕ} {reg : BitVec 32}
    (h : getDmaStatus tm occupancy reg) : reg &&& tm.getDmaTaskQueueSizeMask =
      BitVec.ofNat 32 occupancy <<< countr_zero tm.getDmaTaskQueueSizeMask := by
  have hlt := (reg &&& tm.getDmaTaskQueueSizeMask).isLt
  apply BitVec.eq_of_toNat_eq
  rw [BitVec.toNat_shiftLeft, BitVec.toNat_ofNat, Nat.shiftLeft_eq, Nat.mod_mul_mod,
    ← Nat.shiftLeft_eq, ← h, Nat.mod_eq_of_lt hlt]

def getDmaIdle {α : Type*} (tm : AIETargetModel) (ch : Channel α) (reg : BitVec 32) : Prop :=
  tm.getDmaChannelIdleMask ≠ 0 → (reg &&& tm.getDmaChannelIdleMask = 0 ↔ ch.unfinished = [])

/-- `NpuMaskPollOp`: blocks until the register's masked bits are `value`. An operand that is not a
constant is `none`. -/
structure NpuMaskPollOp where
  absoluteAddress : Option (BitVec 32)
  value : Option (BitVec 32)
  mask : Option (BitVec 32)
deriving DecidableEq, Repr

/-! ## The model of the compiler -/

/-- A channel's pushes not yet known to have completed, oldest first, each true when it issues a
completion token. -/
structure ChannelState where
  pushes : List Bool := []
  unknownTokens : Bool := false
deriving DecidableEq, Repr

/-- A push would land on a full queue; a depth of `0` means nothing can overflow. -/
def wouldOverflow (q : ChannelState) (depth : ℕ) : Bool :=
  depth != 0 && decide (depth ≤ q.pushes.length)

def push (q : ChannelState) (issuesToken : Bool) : ChannelState :=
  { q with pushes := q.pushes ++ [issuesToken && !q.unknownTokens] }

/-- The oldest push with a token and everything ahead of it are retired. -/
def awaitToken (q : ChannelState) : ChannelState :=
  if q.unknownTokens then q
  else
    match q.pushes.dropWhile (!·) with
    | [] => q
    | _ :: newer => { q with pushes := newer }

/-- The newest `depth - 1` pushes are kept. A token dropped with the others makes the tokens
unknown. -/
def noteSpaceGuaranteed (q : ChannelState) (depth : ℕ) : ChannelState :=
  if 0 < depth ∧ depth - 1 < q.pushes.length then
    let dropped := q.pushes.take (q.pushes.length - (depth - 1))
    let kept := q.pushes.drop (q.pushes.length - (depth - 1))
    let unknownTokens := q.unknownTokens || dropped.contains true
    { pushes := if unknownTokens then kept.map fun _ => false else kept
      unknownTokens := unknownTokens }
  else q

/-! ## What a state says of the hardware -/

def ChannelState.tokenCount (q : ChannelState) : ℕ := q.pushes.countP id

/-- The channel is one the state stands for. -/
structure Describes (countsRunning : Bool) (depth : ℕ) (q : ChannelState) (ch : Channel Bool) :
    Prop where
  room : (ch.occupying countsRunning).length ≤ depth
  length : (ch.occupying countsRunning).length ≤ q.pushes.length
  suffix : q.unknownTokens = false → ch.occupying countsRunning <:+ q.pushes
  tokens : q.unknownTokens = false → ch.tokensToCome id ≤ q.tokenCount

variable {c : Bool} {depth : ℕ} {q : ChannelState} {ch ch' : Channel Bool}

/-- An empty channel. -/
theorem describes_empty : Describes c depth q {} where
  room := by cases c <;> exact Nat.zero_le _
  length := by cases c <;> exact Nat.zero_le _
  suffix _ := by cases c <;> exact List.nil_suffix
  tokens _ := Nat.zero_le _

theorem Describes.drain (h : Describes c depth q ch) (hd : ch.Drain id ch') :
    Describes c depth q ch' where
  room := (hd.occupying_suffix c).length_le.trans h.room
  length := (hd.occupying_suffix c).length_le.trans h.length
  suffix hu := (hd.occupying_suffix c).trans (h.suffix hu)
  tokens hu := hd.tokensToCome_eq ▸ h.tokens hu

theorem Describes.consume (h : Describes c depth q ch) {t : ℕ} (ht : t ≤ ch.tokens) :
    Describes c depth q { ch with tokens := t } where
  room := by
    have := h.room
    cases c <;> exact this
  length := by
    have := h.length
    cases c <;> exact this
  suffix hu := by
    have := h.suffix hu
    cases c <;> exact this
  tokens hu := (Nat.add_le_add_right ht _).trans (h.tokens hu)

/-- **A push onto a queue with room.** -/
theorem describes_push (b : Bool) (h : Describes c depth q ch)
    (hroom : (ch.occupying c).length < depth) : Describes c depth (push q b) (ch.push b) where
  room := by
    rw [Channel.occupying_push, List.length_append, List.length_singleton]
    omega
  length := by
    have := h.length
    rw [Channel.occupying_push, push, List.length_append, List.length_append]
    exact Nat.add_le_add_right this 1
  suffix hu := by
    have hu' : q.unknownTokens = false := hu
    obtain ⟨older, holder⟩ := h.suffix hu'
    rw [Channel.occupying_push]
    exact ⟨older, by simp [push, hu', ← holder]⟩
  tokens hu := by
    have hu' : q.unknownTokens = false := hu
    have := h.tokens hu'
    simp only [Channel.tokensToCome, Channel.unfinished_push, List.countP_append,
      ChannelState.tokenCount, push, hu', Bool.not_false, Bool.and_true] at this ⊢
    exact (Nat.add_assoc _ _ _).symm.le.trans (Nat.add_le_add_right this _)

/-- **A token that was there is the oldest push's that issues one**, and it has finished, with all
that were pushed before it. -/
theorem describes_awaitToken (h : Describes c depth q ch) (ht : 0 < ch.tokens) :
    Describes c depth (awaitToken q) { ch with tokens := ch.tokens - 1 } := by
  have hconsumed := h.consume (t := ch.tokens - 1) (Nat.sub_le _ _)
  unfold awaitToken
  split_ifs with hu
  · exact hconsumed
  rw [Bool.not_eq_true] at hu
  split
  · exact hconsumed
  · rename_i b newer hdrop
    have hsplit := List.takeWhile_append_dropWhile (p := (!·)) (l := q.pushes)
    have hb : b = true := by
      have := List.head_dropWhile_not (!·) (l := q.pushes) (by rw [hdrop]; exact List.cons_ne_nil _ _)
      simpa [hdrop] using this
    have hno : ∀ x ∈ q.pushes.takeWhile (!·), x = false := fun x hx => by
      simpa using List.mem_takeWhile_imp hx
    rw [hdrop, hb] at hsplit
    have hto := h.tokens hu
    rw [ChannelState.tokenCount, ← hsplit] at hto
    have hocc : (ch.occupying c).countP id ≤ ch.unfinished.countP id :=
      (ch.occupying_suffix_unfinished c).sublist.countP_le
    have hsuffix : ch.occupying c <:+ newer := by
      refine suffix_of_countP_lt id (by rw [hsplit]; exact h.suffix hu) hno ?_
      rw [Channel.tokensToCome] at hto
      omega
    refine ⟨hconsumed.room, ?_, fun _ => ?_, fun _ => ?_⟩
    · have := hsuffix.length_le
      cases c <;> exact this
    · cases c <;> exact hsuffix
    · have hzero : (q.pushes.takeWhile (!·)).countP id = 0 :=
        List.countP_eq_zero.2 fun b hb => by simp [hno b hb]
      rw [List.countP_append, hzero, List.countP_cons] at hto
      simp only [Channel.tokensToCome, id_eq, if_true] at hto
      change ch.tokens - 1 + ch.unfinished.countP id ≤ newer.countP id
      omega

/-- **A queue known to have room** holds at most the newest `depth - 1` pushes. -/
theorem describes_noteSpaceGuaranteed (h : Describes c depth q ch)
    (hroom : (ch.occupying c).length < depth) : Describes c depth (noteSpaceGuaranteed q depth) ch := by
  unfold noteSpaceGuaranteed
  split_ifs with hlong
  · have hlen : (q.pushes.drop (q.pushes.length - (depth - 1))).length = depth - 1 := by
      rw [List.length_drop]
      omega
    refine ⟨h.room, ?_, fun hu => ?_, fun hu => ?_⟩
    · dsimp only
      split_ifs
      · rw [List.length_map, hlen]
        omega
      · rw [hlen]
        omega
    all_goals
      obtain ⟨hu, hdropped⟩ := Bool.or_eq_false_iff.1 hu
      simp only [hu, hdropped, Bool.or_self, Bool.false_eq_true, if_false]
    · exact (List.suffix_of_suffix_length_le (h.suffix hu) (List.drop_suffix _ _) (by omega))
    · have hzero : (q.pushes.take (q.pushes.length - (depth - 1))).countP id = 0 := by
        refine List.countP_eq_zero.2 fun b hb => ?_
        rintro rfl
        simp [hb] at hdropped
      have hto := h.tokens hu
      rwa [ChannelState.tokenCount, ← List.take_append_drop (q.pushes.length - (depth - 1)) q.pushes,
        List.countP_append, hzero, Nat.zero_add] at hto
  · exact h

end MlirAie.Queue
