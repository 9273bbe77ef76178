import MlirAie.BdIds.Counts
import MlirAie.BdIds.Hardware

/-!
# What the polls prove

A poll returns on a value of the status register, so its operands bound what the channel still has
unfinished.

* `unfinished_le_queueSizeBound`, `unfinished_eq_nil`: the polls of a design;
* `unfinished_le_victimPoll`: the poll before a configure;
* **`victim_drained`**: past it, no push of the victim is running.
-/

namespace MlirAie.BdIds

open MlirAie.Queue PassContext

/-! ## Sizes and masks -/

theorem le_foldl_range {p : ℕ → Prop} [DecidablePred p] {n x : ℕ} (hx : x < n) (hp : p x) (b : ℕ) :
    x ≤ (List.range n).foldl (fun bound size => if p size then size else bound) b := by
  induction n with
  | zero => exact absurd hx (Nat.not_lt_zero x)
  | succ n ih =>
    rw [List.range_succ, List.foldl_append, List.foldl_cons, List.foldl_nil]
    rcases Nat.lt_succ_iff_lt_or_eq.1 hx with hlt | rfl
    · split_ifs with hn
      · exact hlt.le
      · exact ih hlt
    · rw [if_pos hp]

theorem toNat_le_of_and_not {x y : BitVec 32} (h : x &&& ~~~y = 0) : x.toNat ≤ y.toNat := by
  have hand : x &&& y = x := by
    ext i hi
    have hbit := congrArg (fun z => z.getLsbD i) h
    simp only [BitVec.getLsbD_and, BitVec.getLsbD_not, hi, decide_true, Bool.true_and]
      at hbit
    rw [BitVec.getElem_and, ← BitVec.getLsbD_eq_getElem, ← BitVec.getLsbD_eq_getElem]
    cases hx : x.getLsbD i <;> cases hy : y.getLsbD i <;> simp_all
  rw [← hand, BitVec.toNat_and]
  exact Nat.and_le_right

theorem bit_floor_le (n : ℕ) : bit_floor n ≤ n := by
  rw [bit_floor]
  split_ifs with hn
  · exact Nat.zero_le n
  · exact Nat.log2_self_le hn

theorem victimBound_lt (field : BitVec 32) {queuedBehind : ℕ} (h : 0 < queuedBehind) :
    victimBound field queuedBehind < queuedBehind := by
  have hle : min (bit_floor queuedBehind)
      (bit_floor (field.toNat >>> countr_zero field + 1) / 2) ≤ queuedBehind :=
    (Nat.min_le_left _ _).trans (bit_floor_le queuedBehind)
  rw [victimBound]
  omega

/-! ## Values of the register -/

section

variable {tm : AIETargetModel} {ch : Channel Push} {reg value mask : BitVec 32}

theorem unfinished_length_le (ch : Channel Push) :
    ch.unfinished.length ≤ ch.queued.length + 1 := by
  rw [Channel.unfinished, List.length_append]
  cases ch.running <;> simp [Nat.add_comm]

theorem occupancy_le_field {n : ℕ} (h : getDmaStatus tm n reg) :
    n ≤ tm.getDmaTaskQueueSizeMask.toNat >>> countr_zero tm.getDmaTaskQueueSizeMask := by
  have hle : n <<< countr_zero tm.getDmaTaskQueueSizeMask ≤ tm.getDmaTaskQueueSizeMask.toNat := by
    rw [← h, BitVec.toNat_and]
    exact Nat.and_le_right
  rw [Nat.shiftRight_eq_div_pow, Nat.le_div_iff_mul_le (Nat.two_pow_pos _), ← Nat.shiftLeft_eq]
  exact hle

/-- **The poll of a design bounds the queue.** -/
theorem unfinished_le_queueSizeBound (hreg : reg &&& mask = value)
    (hstatus : getDmaStatus tm ch.queued.length reg) :
    ch.unfinished.length ≤ queueSizeBound tm.getDmaTaskQueueSizeMask value mask + 1 := by
  refine (unfinished_length_le ch).trans (Nat.add_le_add_right ?_ 1)
  refine le_foldl_range (Nat.lt_succ_of_le (occupancy_le_field hstatus)) ?_ 0
  rw [← hstatus.field_eq, ← hreg]
  ext i hi
  simp only [BitVec.getElem_and]
  cases reg[i] <;> cases mask[i] <;> simp

theorem unfinished_eq_nil (hreg : reg &&& mask = value) (hidle : getDmaIdle tm ch reg)
    (hne : tm.getDmaChannelIdleMask ≠ 0)
    (hmask : mask &&& tm.getDmaChannelIdleMask = tm.getDmaChannelIdleMask)
    (hvalue : value &&& tm.getDmaChannelIdleMask = 0) : ch.unfinished = [] := by
  refine (hidle hne).1 ?_
  rw [← hmask, ← BitVec.and_assoc, hreg, hvalue]

/-- **The poll before a configure leaves no more pushes than it says.** -/
theorem unfinished_le_victimPoll {C : PassContext} {status : BitVec 32} {queuedBehind : ℕ}
    (hne : queuedBehind = 0 → C.tm.getDmaChannelIdleMask ≠ 0)
    (hvalue : (C.victimPoll status queuedBehind).1.value = some value)
    (hmask : (C.victimPoll status queuedBehind).1.mask = some mask) (hreg : reg &&& mask = value)
    (hstatus : getDmaStatus C.tm ch.queued.length reg) (hidle : getDmaIdle C.tm ch reg) :
    ch.unfinished.length ≤ (C.victimPoll status queuedBehind).2 := by
  rw [PassContext.victimPoll] at hvalue hmask ⊢
  dsimp only at hvalue hmask ⊢
  split_ifs at hvalue hmask ⊢ with hq
  · obtain rfl := Option.some.inj hvalue
    obtain rfl := Option.some.inj hmask
    rw [(hidle (hne hq)).1 hreg]
    exact Nat.zero_le _
  · obtain rfl := Option.some.inj hvalue
    obtain rfl := Option.some.inj hmask
    refine (unfinished_length_le ch).trans (Nat.add_le_add_right ?_ 1)
    rw [← BitVec.and_assoc, hstatus.field_eq] at hreg
    have hle := toNat_le_of_and_not hreg
    rw [← hstatus.field_eq, hstatus, BitVec.toNat_shiftLeft, BitVec.toNat_ofNat,
      Nat.shiftLeft_eq, Nat.shiftLeft_eq, Nat.mod_mul_mod] at hle
    exact Nat.le_of_mul_le_mul_right (hle.trans (Nat.mod_le _ _)) (Nat.two_pow_pos _)

end

/-! ## The victim -/

theorem victimPoll_le (C : PassContext) (status : BitVec 32) (queuedBehind : ℕ) :
    (C.victimPoll status queuedBehind).2 ≤ queuedBehind := by
  rw [PassContext.victimPoll]
  dsimp only
  split_ifs with hq
  · exact Nat.zero_le _
  · exact victimBound_lt _ (Nat.pos_of_ne_zero hq)

theorem victimOf_spec {C : PassContext} {cfgs : ℕ → ConfigureTask} {s : AllocState} {task : ℕ}
    {v : Victim} (h : C.victimOf cfgs s task = some v) : v.task = task ∧
      (s.startedOnChannel (cfgs task).channelOf).tasks.reverse.findIdx?
        (fun started => started.task == some task) = some v.queuedBehind ∧
      (v.queuedBehind = 0 → C.tm.getDmaChannelIdleMask ≠ 0) := by
  rw [PassContext.victimOf] at h
  split at h
  · cases h
  · rename_i queuedBehind hfind
    split_ifs at h with _ hq hmask hmask
    · cases h
      exact ⟨rfl, hfind, fun _ => hmask⟩
    · cases h
      exact ⟨rfl, hfind, fun h0 => absurd h0 hq⟩

theorem countOf_drop_of_findIdx? {l : List StartedTask} {t queuedBehind n : ℕ}
    (hfind : l.reverse.findIdx? (fun started => started.task == some t) = some queuedBehind)
    (hn : l.length - queuedBehind ≤ n) : countOf t (l.drop n) = 0 := by
  obtain ⟨hlt, -, hafter⟩ := List.findIdx?_eq_some_iff_getElem.1 hfind
  refine countOf_eq_zero.2 fun started hmem htask => ?_
  obtain ⟨i, hi, rfl⟩ := List.mem_iff_getElem.1 hmem
  rw [List.length_drop] at hi
  rw [List.getElem_drop] at htask
  have hidx : l.length - 1 - (l.length - 1 - (n + i)) = n + i := by omega
  refine hafter (l.length - 1 - (n + i)) (by omega) ?_
  simpa only [List.getElem_reverse, hidx, beq_iff_eq] using htask

/-- **Past the poll no push of the victim is running.** -/
theorem victim_drained {cfgs : ℕ → ConfigureTask} {s : AllocState} (h : Counted cfgs s)
    (task : ℕ) {queuedBehind unfinished : ℕ}
    (hfind : (s.startedOnChannel (cfgs task).channelOf).tasks.reverse.findIdx?
      (fun started => started.task == some task) = some queuedBehind)
    (hle : unfinished ≤ queuedBehind) :
    (s.noteDrained (cfgs task).channelOf unfinished).runningCount task = 0 := by
  have hlt := (List.findIdx?_eq_some_iff_getElem.1 hfind).1
  rw [List.length_reverse] at hlt
  rw [(h.noteDrained (cfgs task).channelOf unfinished).running, AllocState.noteDrained]
  dsimp only
  rw [if_neg (by omega)]
  change countOf task ((Function.update s.startedOnChannel (cfgs task).channelOf _
    (cfgs task).channelOf).tasks.drop (Function.update s.startedOnChannel (cfgs task).channelOf _
      (cfgs task).channelOf).finished) = 0
  rw [Function.update_self]
  exact countOf_drop_of_findIdx? hfind
    ((Nat.sub_le_sub_left hle _).trans (Nat.le_max_right _ _))

end MlirAie.BdIds
