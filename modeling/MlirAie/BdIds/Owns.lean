import MlirAie.BdIds.Polls
import MlirAie.Lib.Pool

/-!
# Who holds an id

Every task that is not released holds its ids alone among the tasks of its tile, and a task is
released only once none of its pushes is running.

* `Valid`: the invariant of the walk; **`Valid.noteDrained`**, **`recycle_valid`**, **`take_valid`**
  keep it;
* `reclaimFor_cases`: the two ways to take ids back;
* `nextOrReclaim_eq_of_le`: the reclaiming loop never stops for lack of fuel.
-/

namespace MlirAie.BdIds

open MlirAie.Queue MlirAie.Lib PassContext

@[grind =] def AllocState.ids (s : AllocState) (task : ℕ) : List ℕ := (s.bdIds task).getD []

/-- The invariant of the walk. `held` are the ids handed out: those of the tasks configured so far,
and of the one being configured. -/
structure Valid (cfgs : ℕ → ConfigureTask) (held : ℕ → List ℕ) (s : AllocState) : Prop
    extends Counted cfgs s where
  owned : Owned (fun t => (cfgs t).tile) held s.gens s.releasedTasks
  live : ∀ tile, ∀ t ∈ s.liveByTile tile, (cfgs t).tile = tile
  back : ∀ t ∈ s.releasedTasks, t ∈ s.awaitedConfigures ∨ t ∈ s.reclaimed
  configured : ∀ t ∈ s.releasedTasks, (s.bdIds t).isSome

/-- The channels and the ids of the tasks are those of `s`. -/
structure SameTasks (s s' : AllocState) : Prop where
  channels : s'.startedOnChannel = s.startedOnChannel
  bdIds : s'.bdIds = s.bdIds

variable {C : PassContext} {cfgs : ℕ → ConfigureTask} {held : ℕ → List ℕ} {s s' : AllocState}

theorem SameTasks.trans {s'' : AllocState} (h : SameTasks s s') (h' : SameTasks s' s'') :
    SameTasks s s'' := ⟨h'.channels.trans h.channels, h'.bdIds.trans h.bdIds⟩

theorem noteAwaited_bdIds (s : AllocState) (key : ChannelKey) :
    (s.noteAwaited key).bdIds = s.bdIds := by
  rw [AllocState.noteAwaited]
  split <;> rfl

theorem noteAwaited_ids (s : AllocState) (key : ChannelKey) : (s.noteAwaited key).ids = s.ids := by
  funext t
  rw [AllocState.ids, noteAwaited_bdIds, AllocState.ids]

theorem noteDrained_bdIds (s : AllocState) (key : ChannelKey) (n : ℕ) :
    (s.noteDrained key n).bdIds = s.bdIds := by
  rw [AllocState.noteDrained]
  split_ifs <;> rfl

theorem notePoll_bdIds (C : PassContext) (s : AllocState) (p : NpuMaskPollOp) :
    (C.notePoll s p).bdIds = s.bdIds := by
  rw [PassContext.notePoll]
  split
  · dsimp only
    split
    · rfl
    · split
      · rfl
      · split <;> exact noteDrained_bdIds _ _ _
  · rfl

theorem notePoll_ids (C : PassContext) (s : AllocState) (p : NpuMaskPollOp) :
    (C.notePoll s p).ids = s.ids := by
  funext t
  rw [AllocState.ids, notePoll_bdIds, AllocState.ids]

namespace Valid

theorem noteDrained (h : Valid cfgs held s) (key : ChannelKey) (unfinished : ℕ) :
    Valid cfgs held (s.noteDrained key unfinished) where
  toCounted := h.toCounted.noteDrained key unfinished
  owned := by
    rw [AllocState.noteDrained]
    split_ifs <;> exact h.owned
  live := by
    rw [AllocState.noteDrained]
    split_ifs <;> exact h.live
  back := by
    rw [AllocState.noteDrained]
    split_ifs <;> exact h.back
  configured := by
    rw [AllocState.noteDrained]
    split_ifs <;> exact h.configured

theorem noteAwaited (h : Valid cfgs held s) (key : ChannelKey) :
    Valid cfgs held (s.noteAwaited key) where
  toCounted := h.toCounted.noteAwaited key
  owned := by
    rw [AllocState.noteAwaited]
    split <;> exact h.owned
  live := by
    rw [AllocState.noteAwaited]
    split <;> exact h.live
  back := by
    rw [AllocState.noteAwaited]
    split <;> exact h.back
  configured := by
    rw [AllocState.noteAwaited]
    split <;> exact h.configured

theorem notePoll (h : Valid cfgs held s) (p : NpuMaskPollOp) : Valid cfgs held (C.notePoll s p) := by
  rw [PassContext.notePoll]
  split
  · dsimp only
    split
    · exact h
    · split
      · exact h
      · split
        · exact h.noteDrained _ _
        · exact h.noteDrained _ _
  · exact h

theorem of_counted (h : Valid cfgs held s) (hc : Counted cfgs s') (hgens : s'.gens = s.gens)
    (hreleased : s'.releasedTasks = s.releasedTasks) (hlive : s'.liveByTile = s.liveByTile)
    (hawaited : s'.awaitedConfigures = s.awaitedConfigures) (hreclaimed : s'.reclaimed = s.reclaimed)
    (hids : s'.bdIds = s.bdIds) : Valid cfgs held s' where
  toCounted := hc
  owned := by rw [hgens, hreleased]; exact h.owned
  live := by rw [hlive]; exact h.live
  back := by rw [hreleased, hawaited, hreclaimed]; exact h.back
  configured := by rw [hreleased, hids]; exact h.configured

theorem pending (h : Valid cfgs held s) (tasks : List ℕ) :
    Valid cfgs held { s with pendingAwaitReleases := tasks } :=
  h.of_counted (h.toCounted.mono rfl rfl rfl h.complete h.proven h.released) rfl rfl rfl rfl rfl rfl

/-- **A task with no running push is released.** -/
theorem release (h : Valid cfgs held s) {task : ℕ} (hrunning : s.runningCount task = 0)
    (hfree : task ∉ s.releasedTasks) (hsome : (s.bdIds task).isSome) (gen : Finset ℕ)
    (hgen : ∀ a ∈ s.gens (cfgs task).tile, a ∉ held task → a ∈ gen)
    (hpushes : s'.startedOnChannel = s.startedOnChannel) (hstart : s'.startCount = s.startCount)
    (hrun : s'.runningCount = s.runningCount) (hcomplete : s'.knownComplete = s.knownComplete)
    (hproven : s'.pollProven = s.pollProven) (hlive : s'.liveByTile = s.liveByTile)
    (hids : s'.bdIds = s.bdIds)
    (hgens : s'.gens = Function.update s.gens (cfgs task).tile gen)
    (hreleased : s'.releasedTasks = insert task s.releasedTasks)
    (hback : ∀ t, t = task ∨ t ∈ s.awaitedConfigures ∨ t ∈ s.reclaimed →
      t ∈ s'.awaitedConfigures ∨ t ∈ s'.reclaimed) : Valid cfgs held s' where
  toCounted := h.toCounted.mono hpushes hstart hrun (hcomplete ▸ h.complete) (hproven ▸ h.proven) (by
    rw [hreleased]
    exact Finset.forall_mem_insert _ _ _ |>.2 ⟨hrunning, h.released⟩)
  owned := by
    rw [hgens, hreleased]
    exact h.owned.release hfree hgen
  live := by rw [hlive]; exact h.live
  back t ht := by
    rw [hreleased, Finset.mem_insert] at ht
    exact hback t (ht.imp_right (h.back t))
  configured := by
    rw [hreleased, hids]
    exact Finset.forall_mem_insert _ _ _ |>.2 ⟨hsome, h.configured⟩

end Valid

/-! ## Ids taken back -/

/-- The ids of a task whose completion an await established go back. -/
theorem recycle_valid (h : Valid cfgs s.ids s) {task : ℕ} (hrunning : s.runningCount task = 0)
    (hr : recycle cfgs s task true = some s') : Valid cfgs s'.ids s' ∧ SameTasks s s' ∧
      s'.knownComplete = s.knownComplete := by
  rw [recycle] at hr
  dsimp only at hr
  by_cases hback : task ∈ s.awaitedConfigures ∨ task ∈ s.reclaimed
  · rw [if_pos hback] at hr
    cases hr
    exact ⟨h.pending _, ⟨rfl, rfl⟩, rfl⟩
  rw [if_neg hback] at hr
  split at hr
  · cases hr
  rename_i l hl
  obtain ⟨gen, hgen, rfl⟩ := Option.map_eq_some_iff.1 hr
  have hids : s.ids task = l := by rw [AllocState.ids, hl, Option.getD_some]
  have hkeep : ∀ a ∈ s.gens (cfgs task).tile, a ∉ l → a ∈ gen := by
    intro a ha hal
    refine foldlM_keeps (P := fun gen : Finset ℕ => a ∈ gen) (fun used b hb used' hused hstep => ?_)
      ha hgen
    split_ifs at hstep with hmem
    cases hstep
    exact Finset.mem_erase.2 ⟨fun heq => hal (heq ▸ hb), hused⟩
  have hfree : task ∉ s.releasedTasks := fun hmem => hback (h.back task hmem)
  refine ⟨h.release hrunning hfree (by rw [hl]; rfl) gen (by rwa [hids]) rfl rfl rfl rfl rfl
    rfl rfl rfl rfl ?_, ⟨rfl, rfl⟩, rfl⟩
  rintro t (rfl | ht | ht)
  · exact .inl (Finset.mem_insert_self _ _)
  · exact .inl (Finset.mem_insert_of_mem ht)
  · exact .inr ht

theorem recycleCompletedTasks_valid (h : Valid cfgs s.ids s) {rest : List RuntimeOp}
    (hr : recycleCompletedTasks cfgs s rest = some s') :
    Valid cfgs s'.ids s' ∧ SameTasks s s' := by
  rw [recycleCompletedTasks] at hr
  refine foldlM_keeps (P := fun r => Valid cfgs r.ids r ∧ SameTasks s r)
    (fun r task _ r' hP hstep => ?_) ⟨h, rfl, rfl⟩ hr
  split_ifs at hstep with hskip
  · cases hstep
    exact hP
  · rw [not_or, not_not] at hskip
    obtain ⟨hvalid, hsame, -⟩ := recycle_valid hP.1 (hP.1.of_complete hskip.1) hstep
    exact ⟨hvalid, hP.2.trans hsame⟩

theorem isCandidate_spec {op : ℕ} {rest : List RuntimeOp} {task : ℕ}
    (h : C.isCandidate cfgs s op rest task = true) :
    task ∉ s.releasedTasks ∧ (s.bdIds task).isSome := by
  rw [isCandidate, Bool.and_eq_true, Bool.and_eq_true, Bool.not_eq_true', decide_eq_false_iff_not]
    at h
  refine ⟨h.1.1, ?_⟩
  cases hids : s.bdIds task with
  | none =>
    rw [hids] at h
    exact absurd h.2 (by simp)
  | some l => rfl

/-- The ids of a task of `op`'s tile are taken back for `op`. -/
theorem take_valid (h : Valid cfgs held s) {op task : ℕ} (hrunning : s.runningCount task = 0)
    (hfree : task ∉ s.releasedTasks) (hsome : (s.bdIds task).isSome)
    (htile : (cfgs task).tile = (cfgs op).tile) (hids : held task = s.ids task) :
    Valid cfgs held (take cfgs s op task) ∧ SameTasks s (take cfgs s op task) := by
  refine ⟨h.release hrunning hfree hsome
    (((s.bdIds task).getD []).foldl Finset.erase (s.gens (cfgs op).tile)) (fun a ha hal => ?_) rfl rfl rfl rfl rfl rfl rfl (by rw [take, htile])
    rfl ?_, rfl, rfl⟩
  · rw [hids] at hal
    exact mem_foldl_erase (htile ▸ ha) hal
  · rintro t (rfl | ht | ht)
    · exact .inr (Finset.mem_insert_self _ _)
    · exact .inl ht
    · exact .inr (Finset.mem_insert_of_mem ht)

/-! ## Reclaiming -/

theorem foldl_touch (cfgs : ℕ → ConfigureTask) (tasks : List ℕ) (s : AllocState) : ∃ channels,
    tasks.foldl (fun s task => s.touch (cfgs task).channelOf) s = { s with channels := channels } := by
  induction tasks generalizing s with
  | nil => exact ⟨s.channels, rfl⟩
  | cons task tasks ih =>
    obtain ⟨channels, hs⟩ := ih (s.touch (cfgs task).channelOf)
    exact ⟨channels, hs⟩

/-- What a loop ends with that keeps its result or takes an element's. -/
theorem foldl_picks {α β : Type*} {f : Option β → α → Option β} {g : α → Option β} {l : List α}
    {best : Option β} {b : β} (h : l.foldl f best = some b)
    (hf : ∀ best a, f best a = best ∨ f best a = g a) : best = some b ∨ ∃ a ∈ l, g a = some b := by
  induction l generalizing best with
  | nil => exact .inl h
  | cons a l ih =>
    rcases ih h with hbest | ⟨x, hx, hg⟩
    · rcases hf best a with heq | heq
      · exact .inl (heq.symm.trans hbest)
      · exact .inr ⟨a, List.mem_cons_self, heq.symm.trans hbest⟩
    · exact .inr ⟨x, List.mem_cons_of_mem a hx, hg⟩

theorem pickVictim_mem {op : ℕ} {rest : List RuntimeOp} {v : Victim}
    (h : C.pickVictim cfgs s op rest = some v) :
    ∃ task ∈ C.pollable cfgs s op rest, C.victimOf cfgs s task = some v := by
  refine (foldl_picks h fun best task => ?_).resolve_left (by simp)
  split
  · exact .inl rfl
  · rename_i hv
    exact .inr hv.symm
  · rename_i hv
    split_ifs
    · exact .inr hv.symm
    · exact .inl rfl

/-- **The two ways to take ids back**: from a task known to have finished, or from a victim a poll
proves finished. -/
theorem reclaimFor_cases {op : ℕ} {rest : List RuntimeOp} {polls : List NpuMaskPollOp}
    (h : C.reclaimFor cfgs s op rest = some (s', polls)) :
    (∃ task ∈ s.liveByTile (cfgs op).tile, C.isCandidate cfgs s op rest task = true ∧
      (task ∈ s.knownComplete ∨ task ∈ s.pollProven) ∧ s' = take cfgs s op task ∧ polls = []) ∨
    ∃ channels status v, ∃ task ∈ s.liveByTile (cfgs op).tile,
      C.isCandidate cfgs s op rest task = true ∧ C.victimOf cfgs s task = some v ∧
      C.tm.getDmaStatusAddress (cfgs task).channelOf = some status ∧
      s' = take cfgs ({ s with channels := channels }.noteDrained (cfgs task).channelOf
        (C.victimPoll status v.queuedBehind).2) op task ∧
      polls = [(C.victimPoll status v.queuedBehind).1] := by
  rw [reclaimFor] at h
  split at h
  · rename_i task hfind
    have hmem := List.mem_of_find?_eq_some hfind
    have hp := List.find?_some hfind
    rw [Bool.and_eq_true, Bool.or_eq_true, decide_eq_true_eq, decide_eq_true_eq] at hp
    cases h
    exact .inl ⟨task, hmem, hp.2, hp.1, rfl, rfl⟩
  · obtain ⟨channels, hs⟩ := foldl_touch cfgs (C.pollable cfgs s op rest) s
    rw [hs] at h
    dsimp only at h
    split at h
    · cases h
    rename_i v hv
    obtain ⟨task, hmem, hvictim⟩ := pickVictim_mem hv
    have htask : v.task = task := (victimOf_spec hvictim).1
    rw [pollable, List.mem_filter, Bool.and_eq_true] at hmem
    rw [htask] at h
    split at h
    · cases h
    rename_i status hstatus
    cases h
    exact .inr ⟨channels, status, v, task, hmem.1, hmem.2.1, hvictim, hstatus, rfl, rfl⟩

/-! ## Fuel -/

def AllocState.unreleased (s : AllocState) (tile : Tile) : ℕ :=
  (s.liveByTile tile).countP fun task => !decide (task ∈ s.releasedTasks)

theorem unreleased_reclaimFor {op : ℕ} {rest : List RuntimeOp} {polls : List NpuMaskPollOp}
    (h : C.reclaimFor cfgs s op rest = some (s', polls)) :
    s'.unreleased (cfgs op).tile < s.unreleased (cfgs op).tile := by
  have hless {task : ℕ} (hmem : task ∈ s.liveByTile (cfgs op).tile) (hfree : task ∉ s.releasedTasks)
      (hlive : s'.liveByTile = s.liveByTile)
      (hreleased : s'.releasedTasks = insert task s.releasedTasks) :
      s'.unreleased (cfgs op).tile < s.unreleased (cfgs op).tile := by
    obtain ⟨before, after, hsplit⟩ := List.append_of_mem hmem
    have hmono (l : List ℕ) : (l.countP fun t => !decide (t ∈ insert task s.releasedTasks)) ≤
        l.countP fun t => !decide (t ∈ s.releasedTasks) :=
      List.countP_mono_left fun t _ ht => by
        rw [Bool.not_eq_true', decide_eq_false_iff_not] at ht ⊢
        exact fun hmem => ht (Finset.mem_insert_of_mem hmem)
    rw [AllocState.unreleased, AllocState.unreleased, hlive, hreleased, hsplit, List.countP_append,
      List.countP_append, List.countP_cons_of_neg (by simp), List.countP_cons_of_pos (by simpa)]
    exact Nat.add_lt_add_of_le_of_lt (hmono before) (Nat.lt_succ_of_le (hmono after))
  rcases reclaimFor_cases h with ⟨task, hmem, hcand, -, rfl, -⟩ |
    ⟨channels, status, v, task, hmem, hcand, -, -, rfl, -⟩
  · exact hless hmem (isCandidate_spec hcand).1 rfl rfl
  · refine hless hmem (isCandidate_spec hcand).1 ?_ ?_
    · rw [take, AllocState.noteDrained]
      split_ifs <;> rfl
    · rw [take, AllocState.noteDrained]
      split_ifs <;> rfl

end MlirAie.BdIds
