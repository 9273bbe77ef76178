import MlirAie.BdIds.Assign
import MlirAie.Lib.Trace

/-!
# The hardware under a runtime sequence

The channels of the device while a sequence runs, each executing its pushes in order, and the
configures executed so far. A run is unsafe where a configure is given an id that an earlier
configure of the tile held, and a push of that one is still queued or running.

* `Push`, `Device`: what a channel queues, and the whole device;
* `deviceMachine`: the device as a machine;
* `Tracks`: the pushes the allocator keeps of a channel cover what is unfinished there, and account
  for every token; `Tracks.push`, **`Tracks.awaited`**, **`Tracks.drained`** keep it.
-/

namespace MlirAie.BdIds

open MlirAie.Queue MlirAie.Lib

structure Push where
  task : Option ℕ
  issuesToken : Bool
deriving DecidableEq, Repr

def Push.recorded (p : Push) : Bool := p.task.isSome || p.issuesToken

/-- The channels, and the ids of the configures executed so far. -/
structure Device where
  channels : ChannelKey → Channel Push := fun _ => {}
  held : List (ℕ × List ℕ) := []

/-- A push of the task is queued or running. -/
def Device.Unfinished (dev : Device) (task : ℕ) : Prop :=
  ∃ key, ∃ p ∈ (dev.channels key).unfinished, p.task = some task

section

variable (tm : AIETargetModel) (cfgs : ℕ → ConfigureTask)

/-- A poll with constant operands returns on a value of the status register it reads. -/
def PollReturns (dev : Device) (p : NpuMaskPollOp) : Prop :=
  ∀ address value mask, p = ⟨some address, some value, some mask⟩ →
    ∃ reg, reg &&& mask = value ∧ ∀ key, tm.getDmaStatusAddress key = some address →
      getDmaStatus tm (dev.channels key).queued.length reg ∧
        getDmaIdle tm (dev.channels key) reg

/-- A push onto a channel. The schedules are those in which a channel executes all its pushes. -/
def Device.push (dev : Device) (key : ChannelKey) (p : Push) : Device :=
  { dev with channels := Function.update dev.channels key ((dev.channels key).push p) }

/-- A sync takes the oldest token of the channel, and blocks until there is one. -/
def Consumes (dev dev' : Device) (key : ChannelKey) : Prop :=
  0 < (dev.channels key).tokens ∧ dev' = { dev with
    channels := Function.update dev.channels key
      { dev.channels key with tokens := (dev.channels key).tokens - 1 } }

def LoweredOp.Step : LoweredOp → Device → Device → Prop
  | .configure task ids, dev, dev' => dev' = { dev with held := dev.held ++ [(task, ids)] }
  | .op (.start task issuesToken _), dev, dev' =>
    dev' = dev.push (cfgs task).channelOf ⟨some task, issuesToken⟩
  | .op (.await task), dev, dev' =>
    if (cfgs task).issueToken then Consumes dev dev' (cfgs task).channelOf else dev' = dev
  | .op (.otherAwait (some key)), dev, dev' => Consumes dev dev' key
  | .op (.otherAwait none), dev, dev' => dev'.held = dev.held ∧
    ∀ key, ∃ t ≤ (dev.channels key).tokens,
      dev'.channels key = { dev.channels key with tokens := t }
  | .op (.otherPush key issuesToken), dev, dev' => dev' = dev.push key ⟨none, issuesToken⟩
  | .op (.maskPoll p), dev, dev' => PollReturns tm dev p ∧ dev' = dev
  | .op (.configure _), dev, dev' | .op (.free _), dev, dev' => dev' = dev

/-- No push of a configure that held one of the ids on the tile is queued or running. -/
def IdsUnused (dev : Device) (task : ℕ) (ids : List ℕ) : Prop :=
  ∀ holder ∈ dev.held, (cfgs holder.1).tile = (cfgs task).tile →
    (∃ id ∈ ids, id ∈ holder.2) → ¬ dev.Unfinished holder.1

/-- The device. A configure is safe where its ids are unused. -/
def deviceMachine : Machine Device LoweredOp where
  internal dev dev' := ∃ key ch, (dev.channels key).Drain Push.issuesToken ch ∧
    dev' = { dev with channels := Function.update dev.channels key ch }
  step := LoweredOp.Step tm cfgs
  ok o dev := ∀ task ids, o = .configure task ids → IdsUnused cfgs dev task ids

end

/-! ## What the allocator keeps of a channel -/

def StartedTask.push (s : StartedTask) : Push := ⟨s.task, s.issuesToken⟩

/-- The recorded pushes that are unfinished are the newest ones not known to have finished, and no
token is unaccounted for. -/
structure Tracks (pushes : ChannelPushes) (ch : Channel Push) : Prop where
  suffix : ch.unfinished.filter Push.recorded <:+
    (pushes.tasks.drop pushes.finished).map StartedTask.push
  tokens : ch.tokensToCome Push.issuesToken ≤ pushes.tasks.countP StartedTask.issuesToken

namespace Tracks

variable {pushes : ChannelPushes} {ch ch' : Channel Push}

theorem empty : Tracks {} {} where
  suffix := List.suffix_rfl
  tokens := le_rfl

theorem drain (h : Tracks pushes ch) (hd : ch.Drain Push.issuesToken ch') : Tracks pushes ch' where
  suffix := (hd.unfinished_suffix.filter _).trans h.suffix
  tokens := hd.tokensToCome_eq ▸ h.tokens

theorem consume (h : Tracks pushes ch) {t : ℕ} (ht : t ≤ ch.tokens) :
    Tracks pushes { ch with tokens := t } where
  suffix := h.suffix
  tokens := (Nat.add_le_add_right ht _).trans h.tokens

theorem push (h : Tracks pushes ch) (hfinished : pushes.finished ≤ pushes.tasks.length)
    (started : StartedTask) (hrec : started.push.recorded = true) :
    Tracks { pushes with tasks := pushes.tasks ++ [started] } (ch.push started.push) where
  suffix := by
    obtain ⟨older, holder⟩ := h.suffix
    rw [Channel.unfinished_push, List.filter_append, List.filter_cons_of_pos hrec, List.filter_nil,
      List.drop_append_of_le_length hfinished, List.map_append]
    exact ⟨older, by rw [← List.append_assoc, holder]; rfl⟩
  tokens := by
    have := h.tokens
    simp only [Channel.tokensToCome, Channel.unfinished_push, List.countP_append] at this ⊢
    rw [← Nat.add_assoc]
    exact Nat.add_le_add_right this _

/-- A raw push without a token. -/
theorem push_unrecorded (h : Tracks pushes ch) {p : Push} (hrec : p.recorded = false) :
    Tracks pushes (ch.push p) where
  suffix := by
    rw [Channel.unfinished_push, List.filter_append, List.filter_cons_of_neg (by simp [hrec]),
      List.filter_nil, List.append_nil]
    exact h.suffix
  tokens := by
    have htok : p.issuesToken = false := (Bool.or_eq_false_iff.1 hrec).2
    have := h.tokens
    simp only [Channel.tokensToCome, Channel.unfinished_push, List.countP_append,
      List.countP_singleton, htok, Bool.false_eq_true, if_false, Nat.add_zero] at this ⊢
    exact this

theorem countP_recorded (l : List Push) :
    (l.filter Push.recorded).countP Push.issuesToken = l.countP Push.issuesToken := by
  rw [List.countP_filter]
  refine List.countP_congr fun p _ => ?_
  simp only [Push.recorded, Bool.and_eq_true, Bool.or_eq_true]
  exact ⟨fun h => h.1, fun h => ⟨h, .inr h⟩⟩

/-- **A token that was there is the oldest recorded push's that issues one**: what is unfinished was
pushed after it. -/
theorem awaited (h : Tracks pushes ch) (ht : 0 < ch.tokens) {it : ℕ}
    (hit : pushes.tasks.findIdx? StartedTask.issuesToken = some it) :
    Tracks ⟨pushes.tasks.drop (it + 1), pushes.finished - min pushes.finished (it + 1)⟩
      { ch with tokens := ch.tokens - 1 } := by
  obtain ⟨hlt, htok, hbefore⟩ := List.findIdx?_eq_some_iff_getElem.1 hit
  have hsplit : pushes.tasks = pushes.tasks.take it ++
      pushes.tasks[it] :: pushes.tasks.drop (it + 1) := by
    rw [← List.drop_eq_getElem_cons hlt, List.take_append_drop]
  have hnone : ∀ s ∈ pushes.tasks.take it, s.issuesToken = false := by
    intro s hs
    obtain ⟨i, hi, rfl⟩ := List.mem_iff_getElem.1 hs
    rw [List.length_take] at hi
    rw [List.getElem_take]
    simpa using hbefore i (by omega)
  have hcount : pushes.tasks.countP StartedTask.issuesToken =
      (pushes.tasks.drop (it + 1)).countP StartedTask.issuesToken + 1 := by
    rw [hsplit, List.countP_append, List.countP_eq_zero.2 (fun s hs => by simp [hnone s hs]),
      List.countP_cons_of_pos htok]
    simp
  have htokens := h.tokens
  rw [Channel.tokensToCome, hcount] at htokens
  refine ⟨?_, ?_⟩
  · -- past the token, and past what was known to have finished
    have hwhole : ch.unfinished.filter Push.recorded <:+ pushes.tasks.map StartedTask.push :=
      h.suffix.trans ((List.drop_suffix _ _).map _)
    have hpast : ch.unfinished.filter Push.recorded <:+
        (pushes.tasks.drop (it + 1)).map StartedTask.push := by
      rw [hsplit, List.map_append, List.map_cons] at hwhole
      refine suffix_of_countP_lt Push.issuesToken hwhole (fun p hp => ?_) ?_
      · obtain ⟨s, hs, rfl⟩ := List.mem_map.1 hp
        exact hnone s hs
      · rw [← List.map_cons, ← List.map_append, ← hsplit, List.countP_map, countP_recorded]
        change _ < pushes.tasks.countP StartedTask.issuesToken
        omega
    change ch.unfinished.filter Push.recorded <:+ _
    rcases Nat.le_total pushes.finished (it + 1) with hle | hle
    · rw [min_eq_left hle, Nat.sub_self, List.drop_zero]
      exact hpast
    · rw [min_eq_right hle, List.drop_drop, Nat.add_sub_cancel' hle]
      exact h.suffix
  · change ch.tokens - 1 + ch.unfinished.countP Push.issuesToken ≤
      (pushes.tasks.drop (it + 1)).countP StartedTask.issuesToken
    omega

/-- **At most the newest `n` pushes are unfinished.** -/
theorem drained (h : Tracks pushes ch) {n : ℕ} (hn : ch.unfinished.length ≤ n) :
    Tracks { pushes with finished := max pushes.finished (pushes.tasks.length - n) } ch where
  suffix := by
    rcases Nat.le_total (pushes.tasks.length - n) pushes.finished with hle | hle
    · rw [max_eq_left hle]
      exact h.suffix
    · rw [max_eq_right hle]
      refine List.suffix_of_suffix_length_le (h.suffix.trans ((List.drop_suffix _ _).map _))
        ((List.drop_suffix _ _).map _) ?_
      rw [List.length_map, List.length_drop]
      have hlen := (List.filter_sublist (p := Push.recorded) (l := ch.unfinished)).length_le
      have htotal := (h.suffix.trans ((List.drop_suffix _ _).map _)).length_le
      rw [List.length_map] at htotal
      dsimp only
      omega
  tokens := h.tokens

/-- A task with no push left among those not known to have finished. -/
theorem not_unfinished (h : Tracks pushes ch) {t : ℕ}
    (hnone : ∀ s ∈ pushes.tasks.drop pushes.finished, s.task ≠ some t) :
    ∀ p ∈ ch.unfinished, p.task ≠ some t := by
  intro p hp htask
  have hrec : p ∈ ch.unfinished.filter Push.recorded :=
    List.mem_filter.2 ⟨hp, by simp [Push.recorded, htask]⟩
  obtain ⟨s, hs, rfl⟩ := List.mem_map.1 (h.suffix.subset hrec)
  exact hnone s hs htask

end Tracks

end MlirAie.BdIds
