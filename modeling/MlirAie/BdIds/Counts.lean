import MlirAie.BdIds.Assign

/-!
# The counts of the walk

The walk keeps two counts of every task, its pushes whose tokens are not consumed and those not
known to have finished, and three sets of tasks that the counts back.

* `countOf`: the pushes of a task in a list; `countDown_apply`, `countFinished_mem`: the loops;
* `Counted`: the counts are what they say, and the sets are of tasks with nothing running;
* **`Counted.notePush`**, **`Counted.noteAwaited`**, **`Counted.noteDrained`** keep it.
-/

namespace MlirAie.BdIds

open MlirAie.Queue

/-- The pushes of task `t`. -/
@[grind =] def countOf (t : ℕ) (l : List StartedTask) : ℕ := l.countP fun s => s.task == some t

theorem countOf_append (t : ℕ) (l m : List StartedTask) :
    countOf t (l ++ m) = countOf t l + countOf t m := List.countP_append

theorem countOf_singleton (t : ℕ) (s : StartedTask) :
    countOf t [s] = if s.task = some t then 1 else 0 := by
  simp [countOf, List.countP_cons]

theorem countOf_take_add_drop (t n : ℕ) (l : List StartedTask) :
    countOf t (l.take n) + countOf t (l.drop n) = countOf t l := by
  rw [← countOf_append, List.take_append_drop]

theorem countOf_eq_zero {t : ℕ} {l : List StartedTask} :
    countOf t l = 0 ↔ ∀ s ∈ l, s.task ≠ some t := by
  simp [countOf, List.countP_eq_zero]

namespace AllocState

theorem bump_apply (f : ℕ → ℕ) (counts : ℕ → ℕ) (task : Option ℕ) (t : ℕ) :
    bump f counts task t = if task = some t then f (counts t) else counts t := by
  cases task with
  | none => rfl
  | some u =>
    by_cases h : t = u
    · subst h
      simp [bump]
    · rw [bump, Function.update_of_ne h, if_neg (by simpa [eq_comm] using h)]

theorem countDown_apply (counts : ℕ → ℕ) (l : List StartedTask) (t : ℕ) :
    countDown counts l t = counts t - countOf t l := by
  induction l generalizing counts with
  | nil => rfl
  | cons s l ih =>
    change countDown (bump (· - 1) counts s.task) l t = _
    rw [ih, bump_apply, countOf, countOf, List.countP_cons]
    by_cases h : s.task = some t
    · simp only [h, if_true, beq_self_eq_true]
      omega
    · simp [h]

theorem countFinished_fst (l : List StartedTask) (r : (ℕ → ℕ) × Finset ℕ) :
    (l.foldl countFinished r).1 = countDown r.1 l := by
  induction l generalizing r with
  | nil => rfl
  | cons s l ih => exact ih _

theorem countFinished_mem {l : List StartedTask} {r : (ℕ → ℕ) × Finset ℕ} {t : ℕ}
    (h : t ∈ (l.foldl countFinished r).2) : t ∈ r.2 ∨ countDown r.1 l t = 0 := by
  induction l generalizing r with
  | nil => exact .inl h
  | cons s l ih =>
    rcases ih h with hmem | hzero
    · cases hs : s.task with
      | none =>
        rw [countFinished, hs] at hmem
        exact .inl hmem
      | some u =>
        simp only [countFinished, hs] at hmem
        split_ifs at hmem with hu
        · rcases Finset.mem_insert.1 hmem with rfl | hmem
          · refine .inr ?_
            change countDown (bump (· - 1) r.1 s.task) l t = 0
            rw [countDown_apply, hs, hu, Nat.zero_sub]
          · exact .inl hmem
        · exact .inl hmem
    · exact .inr hzero

end AllocState

/-- The counts of the walk, and what the sets of tasks say of them. -/
structure Counted (cfgs : ℕ → ConfigureTask) (s : AllocState) : Prop where
  finished : ∀ key, (s.startedOnChannel key).finished ≤ (s.startedOnChannel key).tasks.length
  own : ∀ key, ∀ started ∈ (s.startedOnChannel key).tasks, ∀ t, started.task = some t →
    key = (cfgs t).channelOf
  start : ∀ t, s.startCount t = countOf t (s.startedOnChannel (cfgs t).channelOf).tasks
  running : ∀ t, s.runningCount t = countOf t ((s.startedOnChannel (cfgs t).channelOf).tasks.drop
    (s.startedOnChannel (cfgs t).channelOf).finished)
  complete : ∀ t ∈ s.knownComplete, s.startCount t = 0
  proven : ∀ t ∈ s.pollProven, s.runningCount t = 0
  released : ∀ t ∈ s.releasedTasks, s.runningCount t = 0

namespace Counted

variable {cfgs : ℕ → ConfigureTask} {s : AllocState}

theorem running_le_start (h : Counted cfgs s) (t : ℕ) : s.runningCount t ≤ s.startCount t := by
  rw [h.running, h.start, ← countOf_take_add_drop t
    (s.startedOnChannel (cfgs t).channelOf).finished (s.startedOnChannel (cfgs t).channelOf).tasks]
  exact Nat.le_add_left _ _

/-- A task with no running push has none among those of any channel not known to have finished. -/
theorem not_running (h : Counted cfgs s) {t : ℕ} (ht : s.runningCount t = 0) (key : ChannelKey) :
    ∀ started ∈ (s.startedOnChannel key).tasks.drop (s.startedOnChannel key).finished,
      started.task ≠ some t := by
  intro started hmem htask
  obtain rfl := h.own key started (List.mem_of_mem_drop hmem) t htask
  rw [h.running] at ht
  exact countOf_eq_zero.1 ht started hmem htask

theorem of_complete (h : Counted cfgs s) {t : ℕ} (ht : t ∈ s.knownComplete) :
    s.runningCount t = 0 :=
  Nat.le_zero.1 ((h.running_le_start t).trans (h.complete t ht).le)

/-- A push, of a task that no set holds. -/
theorem notePush (h : Counted cfgs s) {key : ChannelKey} {task : Option ℕ} (b : Bool)
    (hkey : ∀ t, task = some t → key = (cfgs t).channelOf)
    (hfree : ∀ t, task = some t →
      t ∉ s.knownComplete ∧ t ∉ s.pollProven ∧ t ∉ s.releasedTasks) :
    Counted cfgs (s.notePush key task b) := by
  have hpushes (k : ChannelKey) : (s.notePush key task b).startedOnChannel k =
      if k = key then { s.startedOnChannel key with
        tasks := (s.startedOnChannel key).tasks ++ [⟨task, b, s.pushCount⟩] }
      else s.startedOnChannel k := Function.update_apply ..
  have hbump (t : ℕ) (ht : task ≠ some t) :
      (s.notePush key task b).startCount t = s.startCount t ∧
        (s.notePush key task b).runningCount t = s.runningCount t :=
    ⟨by rw [AllocState.notePush]; exact (AllocState.bump_apply ..).trans (if_neg ht),
      by rw [AllocState.notePush]; exact (AllocState.bump_apply ..).trans (if_neg ht)⟩
  refine ⟨fun k => ?_, fun k started hmem t ht => ?_, fun t => ?_, fun t => ?_, fun t ht => ?_,
    fun t ht => ?_, fun t ht => ?_⟩
  · rw [hpushes]
    split_ifs with hk
    · exact (h.finished key).trans (by simp)
    · exact h.finished k
  · rw [hpushes] at hmem
    split_ifs at hmem with hk
    · subst hk
      rcases List.mem_append.1 hmem with hmem | hmem
      · exact h.own k started hmem t ht
      · obtain rfl := List.mem_singleton.1 hmem
        exact hkey t ht
    · exact h.own k started hmem t ht
  · rw [hpushes]
    change AllocState.bump (· + 1) s.startCount task t = _
    rw [AllocState.bump_apply, h.start]
    split_ifs with ht hk hk
    · rw [countOf_append, countOf_singleton, if_pos ht, hk]
    · exact absurd (hkey t ht).symm hk
    · rw [countOf_append, countOf_singleton, if_neg ht, hk, Nat.add_zero]
    · rfl
  · rw [hpushes]
    change AllocState.bump (· + 1) s.runningCount task t = _
    rw [AllocState.bump_apply, h.running]
    split_ifs with ht hk hk
    · rw [List.drop_append_of_le_length (h.finished key), countOf_append, countOf_singleton,
        if_pos ht, hk]
    · exact absurd (hkey t ht).symm hk
    · rw [List.drop_append_of_le_length (h.finished key), countOf_append, countOf_singleton,
        if_neg ht, hk, Nat.add_zero]
    · rfl
  · rw [(hbump t fun heq => (hfree t heq).1 ht).1]
    exact h.complete t ht
  · rw [(hbump t fun heq => (hfree t heq).2.1 ht).2]
    exact h.proven t ht
  · rw [(hbump t fun heq => (hfree t heq).2.2 ht).2]
    exact h.released t ht

/-- The sets of tasks a state of the same pushes and counts may hold. -/
theorem mono (h : Counted cfgs s) {s' : AllocState}
    (hpushes : s'.startedOnChannel = s.startedOnChannel) (hstart : s'.startCount = s.startCount)
    (hrunning : s'.runningCount = s.runningCount)
    (hcomplete : ∀ t ∈ s'.knownComplete, s.startCount t = 0)
    (hproven : ∀ t ∈ s'.pollProven, s.runningCount t = 0)
    (hreleased : ∀ t ∈ s'.releasedTasks, s.runningCount t = 0) : Counted cfgs s' where
  finished := hpushes ▸ h.finished
  own := hpushes ▸ h.own
  start := by rw [hpushes, hstart]; exact h.start
  running := by rw [hpushes, hrunning]; exact h.running
  complete := hstart ▸ hcomplete
  proven := hrunning ▸ hproven
  released := hrunning ▸ hreleased

theorem touch (h : Counted cfgs s) (key : ChannelKey) : Counted cfgs (s.touch key) :=
  h.mono rfl rfl rfl h.complete h.proven h.released

/-- The await of a channel retires the pushes up to the one that issued its oldest token. -/
theorem noteAwaited (h : Counted cfgs s) (key : ChannelKey) : Counted cfgs (s.noteAwaited key) := by
  rw [AllocState.noteAwaited]
  split
  · exact h.touch key
  rename_i it hit
  have hlt : it < (s.startedOnChannel key).tasks.length :=
    (List.findIdx?_eq_some_iff_getElem.1 hit).1
  dsimp only
  generalize hch : s.startedOnChannel key = ch at hlt ⊢
  have hfin : ch.finished ≤ ch.tasks.length := hch ▸ h.finished key
  have hpushes (k : ChannelKey) : Function.update s.startedOnChannel key
      ⟨ch.tasks.drop (it + 1), ch.finished - min ch.finished (it + 1)⟩ k =
      if k = key then ⟨ch.tasks.drop (it + 1), ch.finished - min ch.finished (it + 1)⟩
      else s.startedOnChannel k := Function.update_apply ..
  -- a task has pushes on its own channel alone
  have hother (t : ℕ) (ht : (cfgs t).channelOf ≠ key) : countOf t (ch.tasks.take (it + 1)) = 0 ∧
      countOf t ((ch.tasks.take (it + 1)).drop ch.finished) = 0 := by
    have hnone : ∀ started ∈ ch.tasks, started.task ≠ some t :=
      fun started hmem htask => ht (h.own key started (hch ▸ hmem) t htask).symm
    exact ⟨countOf_eq_zero.2 fun x hx => hnone x (List.mem_of_mem_take hx),
      countOf_eq_zero.2 fun x hx => hnone x (List.mem_of_mem_take (List.mem_of_mem_drop hx))⟩
  have hrun (t : ℕ) : countOf t (ch.tasks.drop ch.finished) =
      countOf t ((ch.tasks.take (it + 1)).drop ch.finished) +
        countOf t ((ch.tasks.drop (it + 1)).drop (ch.finished - min ch.finished (it + 1))) := by
    have hsub : ch.finished - min ch.finished (it + 1) =
        ch.finished - (ch.tasks.take (it + 1)).length := by
      rw [List.length_take]
      omega
    rw [hsub, ← countOf_append, ← List.drop_append, List.take_append_drop]
  have hstart (t : ℕ) : AllocState.countDown s.startCount (ch.tasks.take (it + 1)) t ≤
      s.startCount t := (AllocState.countDown_apply ..).trans_le (Nat.sub_le _ _)
  have hrunning (t : ℕ) : AllocState.countDown s.runningCount
      ((ch.tasks.take (it + 1)).drop ch.finished) t ≤ s.runningCount t :=
    (AllocState.countDown_apply ..).trans_le (Nat.sub_le _ _)
  refine ⟨fun k => ?_, fun k started hmem t ht => ?_, fun t => ?_, fun t => ?_, fun t ht => ?_,
    fun t ht => Nat.le_zero.1 ((hrunning t).trans (h.proven t ht).le),
    fun t ht => Nat.le_zero.1 ((hrunning t).trans (h.released t ht).le)⟩
  · change (Function.update s.startedOnChannel key _ k).finished ≤
      (Function.update s.startedOnChannel key _ k).tasks.length
    rw [hpushes]
    split_ifs with hk
    · dsimp only
      rw [List.length_drop]
      omega
    · exact h.finished k
  · change started ∈ (Function.update s.startedOnChannel key _ k).tasks at hmem
    rw [hpushes] at hmem
    split_ifs at hmem with hk
    · subst hk
      exact h.own k started (hch ▸ List.mem_of_mem_drop hmem) t ht
    · exact h.own k started hmem t ht
  · change AllocState.countDown s.startCount (ch.tasks.take (it + 1)) t =
      countOf t (Function.update s.startedOnChannel key _ (cfgs t).channelOf).tasks
    rw [AllocState.countDown_apply, h.start, hpushes]
    split_ifs with hk
    · rw [hk, hch, ← countOf_take_add_drop t (it + 1) ch.tasks, Nat.add_sub_cancel_left]
    · rw [(hother t hk).1, Nat.sub_zero]
  · change AllocState.countDown s.runningCount ((ch.tasks.take (it + 1)).drop ch.finished) t =
      countOf t ((Function.update s.startedOnChannel key _ (cfgs t).channelOf).tasks.drop
        (Function.update s.startedOnChannel key _ (cfgs t).channelOf).finished)
    rw [AllocState.countDown_apply, h.running, hpushes]
    split_ifs with hk
    · rw [hk, hch, hrun, Nat.add_sub_cancel_left]
    · rw [(hother t hk).2, Nat.sub_zero]
  · change AllocState.countDown s.startCount (ch.tasks.take (it + 1)) t = 0
    rcases Finset.mem_union.1 ht with ht | ht
    · exact Nat.le_zero.1 ((hstart t).trans (h.complete t ht).le)
    · exact (Finset.mem_filter.1 ht).2

/-- A poll of a channel moves the prefix of its pushes known to have finished. -/
theorem noteDrained (h : Counted cfgs s) (key : ChannelKey) (unfinished : ℕ) :
    Counted cfgs (s.noteDrained key unfinished) := by
  rw [AllocState.noteDrained]
  dsimp only
  split_ifs with hle
  · exact h.touch key
  generalize hch : s.startedOnChannel key = ch at hle ⊢
  generalize hdone : ch.tasks.length - unfinished = done
  have hfin : ch.finished ≤ ch.tasks.length := hch ▸ h.finished key
  have hpushes (k : ChannelKey) : Function.update s.startedOnChannel key
      { ch with finished := max ch.finished done } k =
      if k = key then { ch with finished := max ch.finished done } else s.startedOnChannel k :=
    Function.update_apply ..
  have hother (t : ℕ) (ht : (cfgs t).channelOf ≠ key) :
      countOf t ((ch.tasks.take done).drop ch.finished) = 0 :=
    countOf_eq_zero.2 fun x hx htask => ht (h.own key x
      (hch ▸ List.mem_of_mem_take (List.mem_of_mem_drop hx)) t htask).symm
  have hrun (t : ℕ) : countOf t (ch.tasks.drop ch.finished) =
      countOf t ((ch.tasks.take done).drop ch.finished) +
        countOf t (ch.tasks.drop (max ch.finished done)) := by
    rcases Nat.le_total done ch.finished with hd | hd
    · have hnil : (ch.tasks.take done).drop ch.finished = [] :=
        List.drop_of_length_le (by rw [List.length_take]; omega)
      rw [max_eq_left hd, hnil]
      exact (Nat.zero_add _).symm
    · rw [max_eq_right hd, ← countOf_append]
      congr 1
      conv_lhs => rw [← List.take_append_drop done ch.tasks]
      rw [List.drop_append_of_le_length (by rw [List.length_take]; omega)]
  have hcount : ((((ch.tasks.take done).drop ch.finished).foldl AllocState.countFinished
      (s.runningCount, s.pollProven)).1) =
      AllocState.countDown s.runningCount ((ch.tasks.take done).drop ch.finished) :=
    AllocState.countFinished_fst _ _
  have hrunning (t : ℕ) : AllocState.countDown s.runningCount
      ((ch.tasks.take done).drop ch.finished) t ≤ s.runningCount t :=
    (AllocState.countDown_apply ..).trans_le (Nat.sub_le _ _)
  refine ⟨fun k => ?_, fun k started hmem t ht => ?_, fun t => ?_, fun t => ?_, h.complete,
    fun t ht => ?_, fun t ht => ?_⟩
  · change (Function.update s.startedOnChannel key _ k).finished ≤
      (Function.update s.startedOnChannel key _ k).tasks.length
    rw [hpushes]
    split_ifs with hk
    · dsimp only
      omega
    · exact h.finished k
  · change started ∈ (Function.update s.startedOnChannel key _ k).tasks at hmem
    rw [hpushes] at hmem
    split_ifs at hmem with hk
    · subst hk
      exact h.own k started (hch ▸ hmem) t ht
    · exact h.own k started hmem t ht
  · change s.startCount t = countOf t (Function.update s.startedOnChannel key _
      (cfgs t).channelOf).tasks
    rw [h.start, hpushes]
    split_ifs with hk
    · rw [hk, hch]
    · rfl
  · change (List.foldl AllocState.countFinished (s.runningCount, s.pollProven) _).1 t =
      countOf t ((Function.update s.startedOnChannel key _ (cfgs t).channelOf).tasks.drop
        (Function.update s.startedOnChannel key _ (cfgs t).channelOf).finished)
    rw [hcount, AllocState.countDown_apply, h.running, hpushes]
    split_ifs with hk
    · rw [hk, hch, hrun, Nat.add_sub_cancel_left]
    · rw [hother t hk, Nat.sub_zero]
  · change (List.foldl AllocState.countFinished (s.runningCount, s.pollProven) _).1 t = 0
    rw [hcount]
    rcases AllocState.countFinished_mem ht with ht | ht
    · exact Nat.le_zero.1 ((hrunning t).trans (h.proven t ht).le)
    · exact ht
  · change (List.foldl AllocState.countFinished (s.runningCount, s.pollProven) _).1 t = 0
    rw [hcount]
    exact Nat.le_zero.1 ((hrunning t).trans (h.released t ht).le)

end Counted

end MlirAie.BdIds
