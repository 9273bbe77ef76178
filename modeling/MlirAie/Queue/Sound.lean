import MlirAie.Queue.Finite
import MlirAie.Queue.Paths

/-!
# Queue-depth guarding is sound

Between any two operations of any path, the queue of a channel is described by one of the states the
analysis of the channel has there. A push the analysis does not record finds room in every such
state; a recorded one stands behind a poll.

* `Holds`: some state of the set describes the channel;
* **`analyze_triple`**: its states cover every path;
* **`guardSequenceQueueDepth_safe`**, `guardSequenceQueueDepth_exit`.
-/

namespace MlirAie.Queue

open MlirAie.Lib

namespace ChannelAnalysis

variable (A : ChannelAnalysis) (c : Bool)

/-- Some state describes the channel. -/
def Holds (states : States) (hw : Channels) : Prop :=
  ∃ q ∈ states, Describes c A.depth q (hw A.key)

/-- The channel's queue is not past its depth. -/
def Fits (hw : Channels) : Prop := outstanding c hw A.key ≤ A.depth

abbrev machine : Machine Channels QueueEvent := queueMachine A.tm c A.key

variable {A c} {states : States} {marks : List ℕ}

/-- A step of the hardware's own drains the channel, or another one. -/
theorem drain_cases {hw hw' : Channels} (h : (machine A c).internal hw hw') :
    hw' A.key = hw A.key ∨ (hw A.key).Drain id (hw' A.key) := by
  obtain ⟨k, ch, hd, rfl⟩ := h
  by_cases hk : A.key = k
  · subst hk
    rw [Function.update_self]
    exact .inr hd
  · rw [Function.update_of_ne hk]
    exact .inl rfl

theorem stable_describes (q : ChannelState) :
    (machine A c).Stable fun hw => Describes c A.depth q (hw A.key) := by
  intro hw hw' hi h
  rcases drain_cases hi with heq | hd
  · rw [heq]
    exact h
  · exact h.drain hd

theorem stable_room (n : ℕ) : (machine A c).Stable fun hw => outstanding c hw A.key < n := by
  intro hw hw' hi h
  rcases drain_cases hi with heq | hd
  · rw [outstanding, heq]
    exact h
  · exact lt_of_le_of_lt (hd.occupying_suffix c).length_le h

theorem stable_holds : (machine A c).Stable (A.Holds c states) := by
  rintro hw hw' hi ⟨q, hq, h⟩
  exact ⟨q, hq, stable_describes q hw hw' hi h⟩

/-! ## What is not a push on the channel -/

/-- An event that is not a push on the channel keeps its queue described. -/
theorem quiet_step {e : QueueEvent} {hw hw' : Channels} {q : ChannelState}
    (hquiet : ∀ id b, e ≠ .op (.effect id (.Push A.key b)))
    (hstep : (machine A c).step e hw hw') (h : Describes c A.depth q (hw A.key)) :
    Describes c A.depth q (hw' A.key) := by
  match e with
  | .op (.effect id (.Push key b)) =>
    have hkey : A.key ≠ key := by
      rintro rfl
      exact hquiet id b rfl
    have hw'_eq : hw' A.key = hw A.key := by
      rw [show hw' = _ from hstep]
      split_ifs
      · rfl
      · rw [Function.update_of_ne hkey]
    rwa [hw'_eq]
  | .op (.effect _ (.Await key)) =>
    obtain ⟨-, rfl⟩ := hstep
    by_cases hkey : A.key = key
    · subst hkey
      rw [Function.update_self]
      exact h.consume (Nat.sub_le _ _)
    · rwa [Function.update_of_ne hkey]
  | .op (.effect _ .Ignore) =>
    obtain ⟨t, ht, heq⟩ := hstep A.key
    rw [heq]
    exact h.consume ht
  | .op (.poll _) =>
    obtain ⟨-, rfl⟩ := hstep
    exact h
  | .spaceWait _ =>
    obtain ⟨-, rfl⟩ := hstep
    exact h

theorem quiet_event {e : QueueEvent} (hquiet : ∀ id b, e ≠ .op (.effect id (.Push A.key b))) :
    (machine A c).Triple (A.Holds c states) [e] (A.Holds c states) := by
  refine .event stable_holds stable_holds (fun _ _ id b he => absurd he (hquiet id b)) ?_
  rintro hw hw' ⟨q, hq, h⟩ hstep
  exact ⟨q, hq, quiet_step hquiet hstep h⟩

/-- An operation that is not a push on the channel. -/
theorem quiet_op {o : SeqOp} (hquiet : ∀ id b, o ≠ .effect id (.Push A.key b)) :
    (machine A c).Triple (A.Holds c states) (guardOp marks o) (A.Holds c states) := by
  have hevent : (machine A c).Triple (A.Holds c states) [.op o] (A.Holds c states) :=
    quiet_event fun id b he => hquiet id b (by cases he; rfl)
  cases o with
  | poll p => exact hevent
  | effect id e =>
    cases e with
    | Push key b =>
      rw [guardOp]
      split_ifs
      · exact (quiet_event fun _ _ he => by cases he).append hevent
      · exact hevent
    | Await key => exact hevent
    | Ignore => exact hevent

/-- **A path without pushes on the channel.** -/
theorem quiet_trace {tr : List SeqOp} (h : ∀ o ∈ tr, ∀ id b, o ≠ .effect id (.Push A.key b)) :
    (machine A c).Triple (A.Holds c states) (guardTrace marks tr) (A.Holds c states) := by
  induction tr with
  | nil => exact .nil stable_holds
  | cons o tr ih =>
    rw [List.forall_mem_cons] at h
    rw [guardTrace_cons]
    exact (quiet_op h.1).append (ih h.2)

theorem not_push_of_visits {o : SeqOp} (h : A.visitsOp o = false) (id : ℕ) (b : Bool) :
    o ≠ .effect id (.Push A.key b) := by
  rintro rfl
  simp [visitsOp, QueueEffect.key?] at h

/-- A region the analysis does not visit. -/
theorem unvisited_trace {region : Region} {tr : List SeqOp} (h : A.visits region = false)
    (htr : ∀ o ∈ tr, o ∈ region.walk) :
    (machine A c).Triple (A.Holds c states) (guardTrace marks tr) (A.Holds c states) := by
  refine quiet_trace fun o ho => not_push_of_visits ?_
  have := List.any_eq_false.1 h o (htr o ho)
  simpa using this

/-! ## One operation -/

theorem room_of_pollsChannel {p : NpuMaskPollOp} {hw : Channels} (hp : A.pollsChannel p = true)
    (hfits : A.Fits c hw) (hret : PollReturns A.tm c hw p) : outstanding c hw A.key < A.depth := by
  unfold pollsChannel at hp
  split at hp
  · rename_i address mask value ha hm hv
    simp only [Bool.if_false_left, Bool.and_eq_true, bne_iff_ne, beq_iff_eq] at hp
    obtain ⟨-, ⟨⟨⟨hbit, hstatus⟩, hfield⟩, hmask⟩, hvalue⟩ := hp
    obtain ⟨reg, hreg, hocc⟩ := hret address value mask (by cases p; simp_all)
    have hreg' := (hocc A.key hstatus).field_eq
    refine lt_of_le_of_ne hfits fun heq => hbit ?_
    rw [heq] at hreg'
    -- the masked value has the bit clear, and the occupancy field would have it set
    calc _ = (reg &&& A.tm.getDmaTaskQueueSizeMask) &&& (BitVec.ofNat 32 A.depth <<<
          countr_zero A.tm.getDmaTaskQueueSizeMask) := by rw [hreg', BitVec.and_self]
      _ = reg &&& mask &&& (BitVec.ofNat 32 A.depth <<<
          countr_zero A.tm.getDmaTaskQueueSizeMask) := by
        rw [BitVec.and_assoc, BitVec.and_comm A.tm.getDmaTaskQueueSizeMask, hfield,
          BitVec.and_assoc, hmask]
      _ = 0 := by rw [hreg, hvalue]
  · cases hp

theorem holds_fits {hw : Channels} (h : A.Holds c states hw) : A.Fits c hw := by
  obtain ⟨q, -, h⟩ := h
  exact h.room

/-- A push with room ahead of it. -/
theorem push_event {id : ℕ} {b : Bool} {S S' : States}
    (hpush : ∀ q ∈ S, push q b ∈ S') :
    (machine A c).Triple (fun hw => A.Holds c S hw ∧ outstanding c hw A.key < A.depth)
      [.op (.effect id (.Push A.key b))] (A.Holds c S') := by
  refine .event ?_ stable_holds (fun hw h _ _ _ => h.2) ?_
  · exact fun hw hw' hi h => ⟨stable_holds hw hw' hi h.1, stable_room A.depth hw hw' hi h.2⟩
  · rintro hw hw' ⟨⟨q, hq, h⟩, hroom⟩ hstep
    refine ⟨push q b, hpush q hq, ?_⟩
    have hroom' : ¬ (A.tm.getDmaTaskQueueDepth A.key ≠ 0 ∧
        A.tm.getDmaTaskQueueDepth A.key ≤ outstanding c hw A.key) :=
      fun hfull => absurd hroom (not_lt.2 hfull.2)
    have hw'_eq : hw' A.key = (hw A.key).push b := by
      rw [show hw' = _ from hstep, if_neg hroom', Function.update_self]
    rw [hw'_eq]
    exact describes_push b h hroom

/-- A push on the channel, recorded or not. -/
theorem push_op (hdepth : 0 < A.depth) {id : ℕ} {b : Bool}
    (hmarks : (A.stepOp (.effect id (.Push A.key b)) states).2 ⊆ marks) :
    (machine A c).Triple (A.Holds c states) (guardOp marks (.effect id (.Push A.key b)))
      (A.Holds c (A.stepOp (.effect id (.Push A.key b)) states).1) := by
  have heffect : A.channelEffectOf (.effect id (.Push A.key b)) = .Push A.key b := by
    simp [channelEffectOf, SeqOp.queueEffect, QueueEffect.key?]
  simp only [stepOp, heffect] at hmarks ⊢
  -- the states once the queue is known to have room
  have hpush : ∀ q ∈ states.map (fun q => if wouldOverflow q A.depth then
      noteSpaceGuaranteed q A.depth else q), push q b ∈ dedupe (states.map (A.pushState b)) := by
    intro q' hq'
    obtain ⟨q, hq, rfl⟩ := List.mem_map.1 hq'
    exact mem_dedupe.2 (List.mem_map.2 ⟨q, hq, rfl⟩)
  have hnote {hw : Channels} (h : A.Holds c states hw) (hroom : outstanding c hw A.key < A.depth) :
      A.Holds c (states.map fun q => if wouldOverflow q A.depth then
        noteSpaceGuaranteed q A.depth else q) hw := by
    obtain ⟨q, hq, h⟩ := h
    refine ⟨_, List.mem_map.2 ⟨q, hq, rfl⟩, ?_⟩
    split_ifs
    · exact describes_noteSpaceGuaranteed h hroom
    · exact h
  rw [guardOp]
  split_ifs with hid
  · rw [← List.singleton_append]
    refine Machine.Triple.append ?_ (push_event hpush)
    refine .event stable_holds ?_ (fun _ _ _ _ he => by cases he) ?_
    · exact fun hw hw' hi h => ⟨stable_holds hw hw' hi h.1, stable_room A.depth hw hw' hi h.2⟩
    · rintro hw hw' h ⟨hroom, rfl⟩
      exact ⟨hnote h hroom, hroom⟩
  · have hnone : ∀ q ∈ states, wouldOverflow q A.depth = false := by
      intro q hq
      by_contra hover
      rw [Bool.not_eq_false] at hover
      rw [if_pos (List.any_eq_true.2 ⟨q, hq, hover⟩)] at hmarks
      exact hid (hmarks (List.mem_singleton_self id))
    refine (push_event hpush).pre fun hw h => ?_
    have hroom : outstanding c hw A.key < A.depth := by
      obtain ⟨q, hq, h⟩ := h
      have hq' := hnone q hq
      have hlen : outstanding c hw A.key ≤ q.pushes.length := h.length
      simp only [wouldOverflow, Bool.and_eq_false_iff, bne_eq_false_iff_eq,
        decide_eq_false_iff_not] at hq'
      omega
    exact ⟨hnote h hroom, hroom⟩

/-- An await or a poll on the channel. -/
theorem await_op {id : ℕ} {key : ChannelKey} :
    (machine A c).Triple (A.Holds c states) (guardOp marks (.effect id (.Await key)))
      (A.Holds c (A.stepOp (.effect id (.Await key)) states).1) := by
  by_cases hkey : key = A.key
  · subst hkey
    have heffect : A.channelEffectOf (.effect id (.Await A.key)) = .Await A.key := by
      simp [channelEffectOf, SeqOp.queueEffect, QueueEffect.key?]
    simp only [stepOp, heffect]
    refine .event stable_holds stable_holds (fun _ _ _ _ he => by cases he) ?_
    rintro hw hw' ⟨q, hq, h⟩ ⟨htok, rfl⟩
    refine ⟨awaitToken q, mem_dedupe.2 (List.mem_map_of_mem hq), ?_⟩
    rw [Function.update_self]
    exact describes_awaitToken h htok
  · have heffect : A.channelEffectOf (.effect id (.Await key)) = .Ignore := by
      simp [channelEffectOf, SeqOp.queueEffect, QueueEffect.key?, hkey]
    simp only [stepOp, heffect]
    exact quiet_op fun _ _ he => by cases he

theorem poll_op {p : NpuMaskPollOp} :
    (machine A c).Triple (A.Holds c states) (guardOp marks (.poll p))
      (A.Holds c (A.stepOp (.poll p) states).1) := by
  rw [stepOp]
  split_ifs with hp
  · refine .event stable_holds stable_holds (fun _ _ _ _ he => by cases he) ?_
    rintro hw hw' h ⟨hret, rfl⟩
    have hroom := room_of_pollsChannel hp (holds_fits h) hret
    obtain ⟨q, hq, h⟩ := h
    exact ⟨_, mem_dedupe.2 (List.mem_map_of_mem hq), describes_noteSpaceGuaranteed h hroom⟩
  · exact quiet_op fun _ _ he => by cases he

/-- **One operation.** -/
theorem op_triple (hdepth : 0 < A.depth) (o : SeqOp) (hmarks : (A.stepOp o states).2 ⊆ marks) :
    (machine A c).Triple (A.Holds c states) (guardOp marks o) (A.Holds c (A.stepOp o states).1) := by
  cases o with
  | poll p => exact poll_op
  | effect id e =>
    cases e with
    | Ignore => exact quiet_op fun _ _ he => by cases he
    | Await key => exact await_op
    | Push key b =>
      by_cases hkey : key = A.key
      · subst hkey
        exact push_op hdepth hmarks
      · have heffect : A.channelEffectOf (.effect id (.Push key b)) = .Ignore := by
          simp [channelEffectOf, SeqOp.queueEffect, QueueEffect.key?, hkey]
        simp only [stepOp, heffect]
        exact quiet_op fun _ _ he => hkey (by cases he; rfl)

/-! ## Unknown regions -/

theorem describes_unknownState {ch : Channel Bool} {q : ChannelState}
    (h : Describes c A.depth q ch) : Describes c A.depth A.unknownState ch where
  room := h.room
  length := h.room.trans_eq (List.length_replicate ..).symm
  suffix hu := nomatch hu
  tokens hu := nomatch hu

theorem pushState_unknownState (hdepth : 0 < A.depth) (b : Bool) :
    A.pushState b A.unknownState = A.unknownState := by
  have hover : wouldOverflow A.unknownState A.depth = true := by
    simp [wouldOverflow, unknownState, hdepth.ne']
  have hnote : noteSpaceGuaranteed A.unknownState A.depth =
      ⟨List.replicate (A.depth - 1) false, true⟩ := by
    rw [noteSpaceGuaranteed, if_pos ⟨hdepth, by simp [unknownState]; omega⟩]
    simp only [unknownState, Bool.true_or, if_true, List.length_replicate, List.drop_replicate,
      List.map_replicate]
    congr 2
    omega
  rw [pushState, if_pos hover, hnote, push, unknownState]
  simp only [Bool.not_true, Bool.and_false]
  rw [← List.replicate_succ', Nat.sub_add_cancel hdepth]

/-- Where nothing is known of the queue, a push behind a poll changes nothing. -/
theorem unknown_op (hdepth : 0 < A.depth) {o : SeqOp}
    (hmarks : ∀ id b, o = .effect id (.Push A.key b) → id ∈ marks) :
    (machine A c).Triple (A.Holds c [A.unknownState]) (guardOp marks o)
      (A.Holds c [A.unknownState]) := by
  by_cases hpush : ∃ id b, o = .effect id (.Push A.key b)
  · obtain ⟨id, b, rfl⟩ := hpush
    have heffect : A.channelEffectOf (.effect id (.Push A.key b)) = .Push A.key b := by
      simp [channelEffectOf, SeqOp.queueEffect, QueueEffect.key?]
    have hstep : A.stepOp (.effect id (.Push A.key b)) [A.unknownState] =
        ([A.unknownState], if [A.unknownState].any fun q => wouldOverflow q A.depth then [id]
          else []) := by
      simp only [stepOp, heffect, List.map_singleton, pushState_unknownState hdepth]
      rfl
    have hsub : (A.stepOp (.effect id (.Push A.key b)) [A.unknownState]).2 ⊆ marks := by
      intro x hx
      rw [hstep] at hx
      split_ifs at hx
      · exact List.mem_singleton.1 hx ▸ hmarks id b rfl
      · cases hx
    have htriple := op_triple (c := c) hdepth (.effect id (.Push A.key b)) hsub
    rwa [hstep] at htriple
  · exact quiet_op fun id b he => hpush ⟨id, b, he⟩

theorem unknown_trace (hdepth : 0 < A.depth) {tr : List SeqOp}
    (hmarks : ∀ o ∈ tr, ∀ id b, o = .effect id (.Push A.key b) → id ∈ marks) :
    (machine A c).Triple (A.Holds c [A.unknownState]) (guardTrace marks tr)
      (A.Holds c [A.unknownState]) := by
  induction tr with
  | nil => exact .nil stable_holds
  | cons o tr ih =>
    rw [List.forall_mem_cons] at hmarks
    rw [guardTrace_cons]
    exact (unknown_op hdepth hmarks.1).append (ih hmarks.2)

theorem foldl_unknownStep (ops : List SeqOp) (r : States × List ℕ) :
    r.2 ⊆ (ops.foldl A.unknownStep r).2 ∧
    (∀ hw, A.Holds c r.1 hw → A.Holds c (ops.foldl A.unknownStep r).1 hw) ∧
    (A.unknownState ∈ r.1 → A.unknownState ∈ (ops.foldl A.unknownStep r).1) ∧
    (r.1 ≠ [] → ∀ id b, SeqOp.effect id (.Push A.key b) ∈ ops →
      id ∈ (ops.foldl A.unknownStep r).2 ∧
        A.unknownState ∈ (ops.foldl A.unknownStep r).1) := by
  induction ops generalizing r with
  | nil => exact ⟨List.Subset.refl _, fun _ h => h, id, fun _ _ _ h => nomatch h⟩
  | cons o ops ih =>
    obtain ⟨hmarks, hholds, hunknown, hpush⟩ := ih (A.unknownStep r o)
    rw [List.foldl_cons]
    by_cases ho : ∃ id b, o = .effect id (.Push A.key b)
    · obtain ⟨id, b, rfl⟩ := ho
      have hstep : A.unknownStep r (.effect id (.Push A.key b)) =
          (r.1.map fun _ => A.unknownState, r.2 ++ if r.1.isEmpty then [] else [id]) := if_pos rfl
      rw [hstep] at hmarks hholds hunknown hpush ⊢
      refine ⟨fun x hx => hmarks (List.mem_append_left _ hx), fun hw h => hholds hw ?_,
        fun h => hunknown (List.mem_map.2 ⟨_, h, rfl⟩), fun hne id' b' hmem => ?_⟩
      · obtain ⟨q, hq, h⟩ := h
        exact ⟨_, List.mem_map.2 ⟨q, hq, rfl⟩, describes_unknownState h⟩
      · obtain ⟨q, qs, hqs⟩ := List.exists_cons_of_ne_nil hne
        refine ⟨?_, hunknown (by simp [hqs])⟩
        rcases List.mem_cons.1 hmem with heq | hmem
        · cases heq
          exact hmarks (by simp [hqs])
        · exact (hpush (by simp [hqs]) id' b' hmem).1
    · have hstep : A.unknownStep r o = r := by
        unfold unknownStep
        split
        · rename_i id key b
          exact if_neg fun hkey => ho ⟨id, b, by rw [hkey]⟩
        · rfl
      rw [hstep] at hmarks hholds hunknown hpush ⊢
      refine ⟨hmarks, hholds, hunknown, fun hne id b hmem => ?_⟩
      rcases List.mem_cons.1 hmem with heq | hmem
      · exact absurd ⟨id, b, heq.symm⟩ ho
      · exact hpush hne id b hmem

/-- **An unknown region.** -/
theorem unknown_triple (hdepth : 0 < A.depth) {nested : Region} {tr : List SeqOp}
    (hmarks : (A.unknownRegion nested states).2 ⊆ marks) (htr : ∀ o ∈ tr, o ∈ nested.walk) :
    (machine A c).Triple (A.Holds c states) (guardTrace marks tr)
      (A.Holds c (A.unknownRegion nested states).1) := by
  obtain ⟨-, hholds, -, hpush⟩ := foldl_unknownStep (c := c) nested.walk (states, [])
  have hdedupe {hw : Channels} (h : A.Holds c (nested.walk.foldl A.unknownStep (states, [])).1 hw) :
      A.Holds c (A.unknownRegion nested states).1 hw := by
    obtain ⟨q, hq, h⟩ := h
    exact ⟨q, mem_dedupe.2 hq, h⟩
  by_cases hnil : states = []
  · rintro hw _ _ _ ⟨q, hq, -⟩
    simp [hnil] at hq
  by_cases hany : ∃ id b, SeqOp.effect id (.Push A.key b) ∈ tr
  · obtain ⟨id, b, hmem⟩ := hany
    have hunknown := (hpush hnil id b (htr _ hmem)).2
    refine ((unknown_trace hdepth fun o ho id' b' heq => ?_).pre ?_).post ?_
    · exact hmarks (hpush hnil id' b' (heq ▸ htr o ho)).1
    · rintro hw ⟨q, -, h⟩
      exact ⟨_, List.mem_singleton_self _, describes_unknownState h⟩
    · rintro hw ⟨q, hq, h⟩
      obtain rfl := List.mem_singleton.1 hq
      exact hdedupe ⟨_, hunknown, h⟩
  · refine (quiet_trace fun o ho id b heq => hany ⟨id, b, heq ▸ ho⟩).post fun hw h => ?_
    exact hdedupe (hholds hw h)

/-! ## Loops -/

/-- **A loop**: what closes the entry states under the body covers any number of trips. -/
theorem loop_triple (hdepth : 0 < A.depth) {body : Region} (hnodup : states.Nodup)
    (hbody : ∀ q t, Traces body t → (A.analyze body [q]).2 ⊆ marks →
      (machine A c).Triple (A.Holds c [q]) (guardTrace marks t)
        (A.Holds c (A.analyze body [q]).1))
    {iterations : List (List SeqOp)} (hts : ∀ t ∈ iterations, Traces body t)
    (hmarks : (closeFrom (fun q => A.analyze body [q])
      (statesUpTo (longest A.depth states)).length 0 (states, [])).2 ⊆ marks) :
    (machine A c).Triple (A.Holds c states) (guardTrace marks iterations.flatten)
      (A.Holds c (closeFrom (fun q => A.analyze body [q])
        (statesUpTo (longest A.depth states)).length 0 (states, [])).1) := by
  have hsub := (closeFrom_grows (fun q => A.analyze body [q])
    (statesUpTo (longest A.depth states)).length 0 (states, [])).1
  have hclosed := closeFrom_closed (r := (states, [])) (statesUpTo (longest A.depth states))
    (fun q hq x hx => mem_statesUpTo.2 (upTo_analyze hdepth body (depth_le_longest _ _)
      (List.forall_mem_singleton.2 (mem_statesUpTo.1 hq)) x hx))
    (fun q hq => mem_statesUpTo.2 (length_le_longest A.depth hq)) hnodup
    (Nat.le_add_right _ 0) (fun x hx => nomatch hx)
  generalize closeFrom (fun q => A.analyze body [q])
    (statesUpTo (longest A.depth states)).length 0 (states, []) = r at hsub hclosed hmarks ⊢
  have hkeep : ∀ es ∈ iterations.map (guardTrace marks),
      (machine A c).Triple (A.Holds c r.1) es (A.Holds c r.1) := by
    intro es hes
    obtain ⟨t, ht, rfl⟩ := List.mem_map.1 hes
    refine Machine.Triple.exists_pre fun q hq => ?_
    obtain ⟨hstates, hvisited⟩ := hclosed q hq
    have htriple := hbody q t (hts t ht) fun x hx => hmarks (hvisited hx)
    refine (htriple.pre fun hw h => ⟨q, List.mem_singleton_self q, h⟩).post ?_
    rintro hw ⟨q', hq', h⟩
    exact ⟨q', hstates hq', h⟩
  rw [guardTrace_flatten]
  refine (Machine.Triple.flatten stable_holds hkeep).pre ?_
  rintro hw ⟨q, hq, h⟩
  exact ⟨q, hsub hq, h⟩

/-! ## The analysis -/

theorem marks_andThen {r : States × List ℕ} {f : States → States × List ℕ}
    (h : (andThen r f).2 ⊆ marks) : r.2 ⊆ marks ∧ (f r.1).2 ⊆ marks :=
  List.append_subset.1 h

/-- **The states of the analysis cover every path**, and no push finds the queue full. -/
theorem analyze_triple (hdepth : 0 < A.depth) (region : Region) {tr : List SeqOp}
    (htr : Traces region tr) (hnodup : states.Nodup)
    (hmarks : (A.analyze region states).2 ⊆ marks) :
    (machine A c).Triple (A.Holds c states) (guardTrace marks tr)
      (A.Holds c (A.analyze region states).1) := by
  induction region generalizing states tr with
  | done =>
    obtain rfl : tr = [] := htr
    exact .nil stable_holds
  | op o rest ih =>
    obtain ⟨tr', htr', rfl⟩ := htr
    rw [guardTrace_cons]
    rw [analyze] at hmarks ⊢
    split_ifs at hmarks ⊢ with hv
    · obtain ⟨hm, hm'⟩ := marks_andThen hmarks
      exact (op_triple hdepth o hm).append (ih htr' (nodup_stepOp o hnodup) hm')
    · exact (quiet_op (not_push_of_visits (by simpa using hv))).append (ih htr' hnodup hmarks)
  | scfFor bounds body rest ihb ihr =>
    obtain ⟨ts, tr', hts, hrun, htr', rfl⟩ := htr
    rw [guardTrace_append]
    rw [analyze] at hmarks ⊢
    split_ifs at hmarks ⊢ with hv
    · refine Machine.Triple.append ?_ (ihr htr' hnodup hmarks)
      rcases Bool.or_eq_true_iff.1 hv with hv | hnever
      · refine unvisited_trace (by simpa using hv) fun o ho => ?_
        obtain ⟨t, ht, ho⟩ := List.mem_flatten.1 ho
        exact mem_walk_of_traces (hts t ht) o ho
      · obtain rfl : ts = [] := by
          by_contra hne
          exact ForBounds.not_mayRun hnever (hrun hne)
        exact .nil stable_holds
    · obtain ⟨hm, hm'⟩ := marks_andThen hmarks
      refine (loop_triple hdepth hnodup (fun q t ht hsub => ?_) hts hm).append (ihr htr' ?_ hm')
      · exact ihb ht (List.nodup_singleton q) hsub
      · exact nodup_closeFrom _ _ hnodup
  | scfIf thenRegion elseRegion rest iht ihe ihr =>
    obtain ⟨t, tr', ht, htr', rfl⟩ := htr
    rw [guardTrace_append]
    rw [analyze] at hmarks ⊢
    split_ifs at hmarks ⊢ with hv
    · obtain ⟨hvt, hve⟩ := Bool.and_eq_true_iff.1 hv
      refine Machine.Triple.append ?_ (ihr htr' hnodup hmarks)
      rcases ht with ht | ht
      · exact unvisited_trace (by simpa using hvt) (mem_walk_of_traces ht)
      · exact unvisited_trace (by simpa using hve) (mem_walk_of_traces ht)
    · obtain ⟨hm, hm'⟩ := marks_andThen hmarks
      obtain ⟨hmt, hme⟩ := List.append_subset.1 hm
      refine Machine.Triple.append ?_ (ihr htr' (nodup_appendNew (nodup_analyze _ hnodup)) hm')
      rcases ht with ht | ht
      · refine (iht ht hnodup hmt).post ?_
        rintro hw ⟨q, hq, h⟩
        exact ⟨q, mem_appendNew.2 (.inl hq), h⟩
      · refine (ihe ht hnodup hme).post ?_
        rintro hw ⟨q, hq, h⟩
        exact ⟨q, mem_appendNew.2 (.inr hq), h⟩
  | unknown nested rest _ ihr =>
    obtain ⟨t, tr', ht, htr', rfl⟩ := htr
    rw [guardTrace_append]
    rw [analyze] at hmarks ⊢
    split_ifs at hmarks ⊢ with hv
    · obtain ⟨hm, hm'⟩ := marks_andThen hmarks
      exact (unknown_triple hdepth hm ht).append (ihr htr' (nodup_dedupe _) hm')
    · exact (unvisited_trace (by simpa using hv) ht).append (ihr htr' hnodup hmarks)

end ChannelAnalysis

/-! ## The whole sequence -/

section

variable {tm : AIETargetModel} {c : Bool} {entry : State} {body : Region} {key : ChannelKey}

theorem State.get_set_self (s : State) (key : ChannelKey) (q : ChannelState) :
    (s.set key q).get key = q := by
  simp [State.get, State.set]

theorem State.get_set_of_ne (s : State) {key key' : ChannelKey} (h : key' ≠ key)
    (q : ChannelState) : (s.set key q).get key' = s.get key' := by
  have hlookup : (s.filter fun e => e.1 != key).lookup key' = s.lookup key' := by
    induction s with
    | nil => rfl
    | cons e s ih =>
      obtain ⟨k, q⟩ := e
      by_cases hk : k = key
      · rw [List.filter_cons_of_neg (by simp [hk]), ih, List.lookup_cons, hk,
          show (key' == key) = false by simpa using h]
      · rw [List.filter_cons_of_pos (by simpa using hk), List.lookup_cons, List.lookup_cons, ih]
  rw [State.get, State.get, State.set, List.lookup_cons,
    show (key' == key) = false by simpa using h, hlookup]

variable (tm entry body) in
theorem foldl_guardChannel (keys : List ChannelKey) (r : List ℕ × State) :
    r.1 ⊆ (keys.foldl (guardChannel tm entry body) r).1 ∧
    (∀ k ∈ keys, (channelExits tm entry body k).2 ⊆
      (keys.foldl (guardChannel tm entry body) r).1) ∧
    (∀ k ∉ keys, (keys.foldl (guardChannel tm entry body) r).2.get k = r.2.get k) ∧
    (keys.Nodup → ∀ k ∈ keys, (keys.foldl (guardChannel tm entry body) r).2.get k =
      channelExit (channelExits tm entry body k).1) := by
  induction keys generalizing r with
  | nil => exact ⟨List.Subset.refl _, by simp, fun _ _ => rfl, by simp⟩
  | cons k keys ih =>
    obtain ⟨hgrow, hmarks, hother, hexit⟩ := ih (guardChannel tm entry body r k)
    rw [List.foldl_cons]
    refine ⟨fun x hx => hgrow (mem_appendNew.2 (.inl hx)), ?_, fun k' hk' => ?_,
      fun hnodup k' hk' => ?_⟩
    · rw [List.forall_mem_cons]
      exact ⟨fun x hx => hgrow (mem_appendNew.2 (.inr hx)), hmarks⟩
    · rw [List.mem_cons, not_or] at hk'
      rw [hother k' hk'.2]
      exact State.get_set_of_ne _ hk'.1 _
    · obtain ⟨hk, hnodup⟩ := List.nodup_cons.1 hnodup
      rcases List.mem_cons.1 hk' with rfl | hk'
      · rw [hother k' hk]
        exact State.get_set_self _ _ _
      · exact hexit hnodup k' hk'

theorem mem_trackedKeys : key ∈ trackedKeys tm entry body ↔
    (key ∈ entry.map Prod.fst ∨ ∃ o ∈ body.walk, o.queueEffect.key? = some key) ∧
      tm.getDmaTaskQueueDepth key ≠ 0 := by
  simp [trackedKeys, or_and_right]

theorem nodup_trackedKeys : (trackedKeys tm entry body).Nodup :=
  (List.perm_insertionSort _ _).nodup_iff.2 (List.nodup_dedup _)

/-- **No push is issued while the channel's queue is full**: along any path through the sequence, on
any schedule of the hardware, from any occupancy the entry state describes, once a queue-space poll
stands before every recorded push. -/
theorem guardSequenceQueueDepth_safe (tm : AIETargetModel) (c : Bool) (entry : State)
    (body : Region) (key : ChannelKey) (hdepth : 0 < tm.getDmaTaskQueueDepth key) (hw : Channels)
    (hentry : Describes c (tm.getDmaTaskQueueDepth key) (entry.get key) (hw key))
    (tr : List SeqOp) (htr : Traces body tr) (id : ℕ) (b : Bool) (pre post : List QueueEvent)
    (hsplit : guardTrace (guardSequenceQueueDepth tm entry body).1 tr =
      pre ++ .op (.effect id (.Push key b)) :: post)
    (hw' : Channels) (hrun : (queueMachine tm c key).Exec hw pre hw') :
    outstanding c hw' key < tm.getDmaTaskQueueDepth key := by
  have hpush : SeqOp.effect id (.Push key b) ∈ tr := by
    have hmem : QueueEvent.op (.effect id (.Push key b)) ∈
        guardTrace (guardSequenceQueueDepth tm entry body).1 tr := by
      rw [hsplit]
      exact List.mem_append_right _ List.mem_cons_self
    obtain ⟨o, ho, hmem⟩ := List.mem_flatMap.mp hmem
    cases o with
    | poll p => cases List.mem_singleton.mp hmem
    | effect id' e =>
      cases e with
      | Ignore => cases List.mem_singleton.mp hmem
      | Await _ => cases List.mem_singleton.mp hmem
      | Push k b' =>
        rw [guardOp] at hmem
        split_ifs at hmem
        · rcases List.mem_pair.mp hmem with h | h
          · cases h
          · cases h
            exact ho
        · cases List.mem_singleton.mp hmem
          exact ho
  have htracked : key ∈ trackedKeys tm entry body :=
    mem_trackedKeys.mpr ⟨.inr ⟨_, mem_walk_of_traces htr _ hpush, rfl⟩, hdepth.ne'⟩
  have hmarks := (foldl_guardChannel tm entry body (trackedKeys tm entry body) ([], entry)).2.1
    key htracked
  have htriple := ChannelAnalysis.analyze_triple (A := ⟨tm, trackedKeys tm entry body, key⟩)
    (c := c) hdepth body htr (List.nodup_singleton _) hmarks
  exact htriple.safe ⟨_, List.mem_singleton_self _, hentry⟩ hsplit hrun id b rfl

theorem describes_channelExit {depth : ℕ} {exits : States} {q : ChannelState} {ch : Channel Bool}
    (hq : q ∈ exits) (h : Describes c depth q ch) : Describes c depth (channelExit exits) ch := by
  have hmerge (x y z : ChannelState) (hz : z = x ∨ z = y) (h : Describes c depth z ch) :
      Describes c depth (if x = y then x
        else ⟨List.replicate (max x.pushes.length y.pushes.length) false, true⟩) ch := by
    split_ifs with hxy
    · rcases hz with rfl | rfl
      · exact h
      · exact hxy ▸ h
    · have hlen : (ch.occupying c).length ≤ max x.pushes.length y.pushes.length := by
        rcases hz with rfl | rfl
        · exact h.length.trans (le_max_left _ _)
        · exact h.length.trans (le_max_right _ _)
      exact {
        room := h.room
        length := hlen.trans_eq (List.length_replicate ..).symm
        suffix := fun hu => nomatch hu
        tokens := fun hu => nomatch hu }
  have hfold (qs : States) (x : ChannelState) (h : ∃ z ∈ x :: qs, Describes c depth z ch) :
      Describes c depth (qs.foldl (fun exit state => if exit = state then exit
        else ⟨List.replicate (max exit.pushes.length state.pushes.length) false, true⟩) x) ch := by
    induction qs generalizing x with
    | nil =>
      obtain ⟨z, hz, h⟩ := h
      exact List.mem_singleton.1 hz ▸ h
    | cons y qs ih =>
      obtain ⟨z, hz, h⟩ := h
      rcases List.mem_cons.1 hz with hz | hz
      · exact ih _ ⟨_, List.mem_cons_self, hmerge x y z (.inl hz) h⟩
      · rcases List.mem_cons.1 hz with hz | hz
        · exact ih _ ⟨_, List.mem_cons_self, hmerge x y z (.inr hz) h⟩
        · exact ih _ ⟨z, List.mem_cons_of_mem _ hz, h⟩
  cases exits with
  | nil => cases hq
  | cons x qs =>
    rw [channelExit]
    exact hfold (x :: qs) x ⟨q, List.mem_cons_of_mem _ hq, h⟩

/-- **The exit state describes the queue** past any path through the sequence. -/
theorem guardSequenceQueueDepth_exit (hdepth : 0 < tm.getDmaTaskQueueDepth key) {hw hw' : Channels}
    (hentry : Describes c (tm.getDmaTaskQueueDepth key) (entry.get key) (hw key))
    {tr : List SeqOp} (htr : Traces body tr)
    (hrun : (queueMachine tm c key).Exec hw
      (guardTrace (guardSequenceQueueDepth tm entry body).1 tr) hw') :
    Describes c (tm.getDmaTaskQueueDepth key) ((guardSequenceQueueDepth tm entry body).2.get key)
      (hw' key) := by
  obtain ⟨-, hmarks, hother, hexit⟩ := foldl_guardChannel tm entry body
    (trackedKeys tm entry body) ([], entry)
  by_cases htracked : key ∈ trackedKeys tm entry body
  · have htriple := ChannelAnalysis.analyze_triple (A := ⟨tm, trackedKeys tm entry body, key⟩)
      (c := c) hdepth body htr (List.nodup_singleton _) (hmarks key htracked)
    obtain ⟨q, hq, h⟩ := htriple.final ⟨_, List.mem_singleton_self _, hentry⟩ hrun
    rw [guardSequenceQueueDepth, hexit nodup_trackedKeys key htracked]
    exact describes_channelExit hq h
  · -- an untracked channel has no push, so that its queue only drains
    have hquiet : ∀ o ∈ tr, ∀ id b, o ≠ .effect id (.Push key b) := by
      rintro o ho id b rfl
      exact htracked (mem_trackedKeys.2 ⟨.inr ⟨_, mem_walk_of_traces htr _ ho, rfl⟩, hdepth.ne'⟩)
    let A : ChannelAnalysis := ⟨tm, trackedKeys tm entry body, key⟩
    have htriple : (A.machine c).Triple (A.Holds c [entry.get key])
        (guardTrace (guardSequenceQueueDepth tm entry body).1 tr) (A.Holds c [entry.get key]) :=
      ChannelAnalysis.quiet_trace hquiet
    obtain ⟨q, hq, h⟩ := htriple.final ⟨_, List.mem_singleton_self _, hentry⟩ hrun
    rw [guardSequenceQueueDepth, hother key htracked]
    exact List.mem_singleton.1 hq ▸ h

/-- Channel `MM2S` 0 of the shim tile at column 0. -/
def sampleKey : ChannelKey := ⟨0, 0, 1, 0⟩

/-- A loop that pushes once, and awaits nothing. -/
def sampleLoop : Region :=
  .scfFor ⟨none, none, false⟩ (.op (.effect 0 (.Push sampleKey false)) .done) .done

def oncePushed : Channels := Function.update (fun _ => {}) sampleKey ((Channel.mk [] none 0).push false)

theorem sampleLoop_safe : outstanding false oncePushed sampleKey < 4 :=
  guardSequenceQueueDepth_safe (AIE2TargetModel (fun _ _ => .ShimNOCTile) []) false [] sampleLoop
    sampleKey (by decide) (fun _ => {}) describes_empty
    [.effect 0 (.Push sampleKey false), .effect 0 (.Push sampleKey false)]
    ⟨[[.effect 0 (.Push sampleKey false)], [.effect 0 (.Push sampleKey false)]], [],
      fun t ht => ⟨[], rfl, by simpa using ht⟩, by rintro - lb ub ⟨⟩, rfl, rfl⟩ 0 false
    [.spaceWait sampleKey, .op (.effect 0 (.Push sampleKey false)), .spaceWait sampleKey] []
    (by decide) oncePushed
    (.event ⟨by decide, rfl⟩ (.event rfl (.event ⟨by decide, rfl⟩ (.done _))))

theorem sampleLoop_exit : Describes false 4
    ((guardSequenceQueueDepth (AIE2TargetModel (fun _ _ => .ShimNOCTile) []) [] sampleLoop).2.get
      sampleKey) (oncePushed sampleKey) := by
  have htrace : guardTrace
      (guardSequenceQueueDepth (AIE2TargetModel (fun _ _ => .ShimNOCTile) []) [] sampleLoop).1
      [.effect 0 (.Push sampleKey false)] =
        [.spaceWait sampleKey, .op (.effect 0 (.Push sampleKey false))] := by decide
  refine @guardSequenceQueueDepth_exit (AIE2TargetModel (fun _ _ => .ShimNOCTile) []) false []
    sampleLoop sampleKey (by decide) (fun _ => {}) oncePushed describes_empty
    [.effect 0 (.Push sampleKey false)]
    ⟨[[.effect 0 (.Push sampleKey false)]], [], fun t ht => ⟨[], rfl, by simpa using ht⟩,
      by rintro - lb ub ⟨⟩, rfl, rfl⟩ ?_
  rw [htrace]
  exact .event ⟨by decide, rfl⟩ (.event rfl (.done _))

end

end MlirAie.Queue
