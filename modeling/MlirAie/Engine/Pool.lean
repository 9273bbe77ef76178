import MlirAie.Engine.Rescan
import MlirAie.Engine.Finish

/-!
# The pool of workers

* **`Inv.finished_of_quiet`**: with nothing queued, nothing held and nothing to queue, every edge is
  finished;
* `Safe`: what holds of the pool between critical sections;
* **`Safe.step`**: every critical section keeps it.
-/

namespace MlirAie.Engine

open MlirAie.Lib

/-! ## The tasks that workers hold -/

namespace State

theorem filterMap_task_set {l : List Worker} {w : ℕ} {x : Worker} (h : l[w]? = some x)
    (y : Worker) : ((l.set w y).filterMap Worker.task ++ x.task.toList).Perm
      (l.filterMap Worker.task ++ y.task.toList) := by
  induction l generalizing w with
  | nil => cases h
  | cons z l ih =>
    cases w with
    | zero =>
      obtain rfl := Option.some.inj h
      rw [List.set_cons_zero, List.filterMap_cons, List.filterMap_cons]
      have hswap (a b : Option Task) (l : List Task) :
          (a.toList ++ l ++ b.toList).Perm (b.toList ++ l ++ a.toList) := by
        rw [List.append_assoc, List.append_assoc]
        refine List.perm_append_comm.trans ?_
        rw [List.append_assoc]
        exact (List.perm_append_comm_assoc _ _ _)
      cases hy : y.task <;> cases hz : z.task <;>
        simpa [hy, hz] using hswap y.task z.task (l.filterMap Worker.task)
    | succ w =>
      rw [List.set_cons_succ, List.filterMap_cons, List.filterMap_cons]
      cases z.task with
      | none => exact ih h
      | some t => exact (ih h).cons t

variable {s : State} {w : ℕ} {x y : Worker} {t : Task}

theorem active_setWorker (h : s.workers[w]? = some x) (hx : x.task = none) (hy : y.task = none) :
    (s.setWorker w y).active.Perm s.active := by
  have hperm := filterMap_task_set h y
  rw [hx, hy, Option.toList_none, List.append_nil, List.append_nil] at hperm
  exact hperm

theorem active_take (h : s.workers[w]? = some x) (hx : x.task = none) (t : Task) :
    (s.setWorker w (.running t)).active.Perm (t :: s.active) := by
  have hperm := filterMap_task_set h (.running t)
  rw [hx, Option.toList_none, List.append_nil] at hperm
  exact hperm.trans (List.perm_append_singleton t _)

theorem active_release (h : s.workers[w]? = some (.running t)) (hy : y.task = none) :
    s.active.Perm (t :: (s.setWorker w y).active) := by
  have hperm := filterMap_task_set h y
  rw [hy, Option.toList_none, List.append_nil] at hperm
  exact (hperm.symm.trans (List.perm_append_singleton t _))

@[simp] theorem active_notifyAll (s : State) : s.notifyAll.active = s.active := by
  unfold active notifyAll
  rw [List.filterMap_map]
  refine List.filterMap_congr fun x _ => ?_
  show Worker.task (if x = .waiting then .ready else x) = x.task
  by_cases hx : x = .waiting
  · rw [if_pos hx, hx]
    rfl
  · rw [if_neg hx]

theorem not_waiting_notifyAll (s : State) : Worker.waiting ∉ s.notifyAll.workers := by
  intro h
  obtain ⟨x, _, hx⟩ := List.mem_map.1 h
  by_cases hw : x = .waiting
  · rw [if_pos hw] at hx
    cases hx
  · rw [if_neg hw] at hx
    exact hw hx

theorem mem_notifyAll_returned (h : Worker.returned ∈ s.notifyAll.workers) :
    Worker.returned ∈ s.workers := by
  obtain ⟨x, hmem, hx⟩ := List.mem_map.1 h
  by_cases hw : x = .waiting
  · rw [if_pos hw] at hx
    cases hx
  · rw [if_neg hw] at hx
    rwa [hx] at hmem

theorem getElem?_notifyAll (h : s.workers[w]? = some .ready) :
    s.notifyAll.workers[w]? = some .ready := by
  show (s.workers.map _)[w]? = _
  rw [List.getElem?_map, h]
  rfl

end State

namespace Scheduler

variable {S : Scheduler} {s s' : State} {act : List Task} {u v w i n : ℕ} {t : Task} {x : Worker}

/-! ## No stall -/

theorem numEdges_le (h : S.Inv s act) (hall : ∀ u ∈ S.edges, (s.st u).finished = true) :
    S.numEdges ≤ s.finishedEdges := by
  rw [h.counted, List.countP_eq_length.2 hall]
  rfl

theorem finished_of_numEdges (h : S.Inv s act) (hle : S.numEdges ≤ s.finishedEdges)
    (hu : u ∈ S.edges) : (s.st u).finished = true := by
  rw [h.counted] at hle
  exact List.countP_eq_length.1 (le_antisymm List.countP_le_length hle) u hu

theorem Inv.completed_of_queued (h : S.Inv s []) (hready : s.ready = [])
    (hfailed : s.failed = false) (hq : queued (s.st t.1) t.2 = true) :
    s.completed.count t = 1 := by
  have hfailures : s.failures = [] := by
    by_contra hne
    exact absurd (hfailed.symm.trans (h.failed_of_failure hne)) (by simp)
  have hplace := h.place t
  rw [hready, hfailures, if_pos hq] at hplace
  simpa using hplace

/-- **With nothing queued, nothing held and nothing to queue, every edge is finished**: an
unfinished edge with the least position would have finished inputs. -/
theorem Inv.finished_of_quiet (h : S.Inv s []) (hr : S.AllRestored s) (hq : S.Quiet s)
    (hready : s.ready = []) (hfailed : s.failed = false) (hu : u ∈ S.edges) :
    (s.st u).finished = true := by
  induction u using Nat.strong_induction_on with
  | _ u ih =>
    by_cases hsat : S.satisfied u = true
    · exact hr u hu hsat
    have hsat := Bool.eq_false_of_not_eq_true hsat
    have he := h.edge u
    obtain ⟨hrun, hopen, hqueue⟩ := hq u hu
    have hmem (v : ℕ) (hv : v ∈ S.graph.inputs u) : v ∈ S.edges :=
      Graph.reachable_closed hu hsat hv
    have hinputs (v : ℕ) (hv : v ∈ S.graph.inputs u) : (s.st v).finished = true :=
      ih v (Graph.inputs_lt hv) (hmem v hv)
    by_contra hfin
    have hfin := Bool.eq_false_of_not_eq_true hfin
    cases hf : S.graph.fan u with
    | false =>
      cases hwhole : (s.st u).wholeQueued with
      | true =>
        have hcount := h.completed_of_queued (t := (u, none)) hready hfailed hwhole
        have hdone := (he.whole hf hsat).2 (by rw [hcount]; exact Nat.one_pos)
        exact absurd (hfin.symm.trans hdone) (by simp)
      | false =>
        refine hrun ⟨hfin, hf, hwhole, (h.running u).trans rfl, fun v hv => ?_⟩
        rw [nodeComplete, stateOf_of_mem s (hmem v hv)]
        exact hinputs v hv
    | true =>
      cases ho : (s.st u).opened with
      | false =>
        refine hopen ⟨hfin, hf, ho, fun v hv => ?_⟩
        rw [nodeFinalKeys, stateOf_of_mem s (hmem v hv)]
        exact (h.edge v).finished_opened (hinputs v hv)
      | true =>
        have hall (i : ℕ) (hi : i < (s.st u).itemState.length) :
            (s.st u).itemState[i]? = some 2 := by
          by_cases hzero : (s.st u).itemState[i]? = some 0
          · refine absurd ⟨hfin, hf, ho, hzero, fun v hv => ?_⟩ (hqueue i)
            rw [nodeItemDone, stateOf_of_mem s (hmem v hv)]
            show (if (s.st v).finished = true then true else _) = true
            rw [if_pos (hinputs v hv)]
          · have hcount := h.completed_of_queued (t := (u, some i)) hready hfailed (by
              rw [List.getElem?_eq_getElem hi] at hzero
              simpa [queued, hi] using hzero)
            exact (he.done i).2 (by rw [hcount]; exact Nat.one_pos)
        have hcount : (s.st u).itemState.count 2 = (s.st u).itemState.length := by
          refine List.count_eq_length.2 fun b hb => ?_
          obtain ⟨i, hi, rfl⟩ := List.mem_iff_getElem.1 hb
          have := hall i hi
          rw [List.getElem?_eq_getElem hi] at this
          exact (Option.some.inj this).symm
        have hdone := (he.fanFinished hf hsat ho).2 (by rw [he.itemsDone, hcount])
        exact absurd (hfin.symm.trans hdone) (by simp)

/-! ## Taking a task -/

theorem pickTask_some {busy : Bool} {ready ready' : List Task}
    (h : S.pickTask busy ready = some (t, ready')) :
    ready.Perm (t :: ready') ∧ (S.exclusive t = true → busy = false) := by
  induction ready generalizing ready' with
  | nil => cases h
  | cons t' ready ih =>
    rw [pickTask] at h
    split_ifs at h with hfree
    · obtain ⟨rfl, rfl⟩ := Prod.mk.inj (Option.some.inj h)
      refine ⟨List.Perm.refl _, fun hex => ?_⟩
      unfold exclusive at hex
      simpa [Bool.eq_false_of_not_eq_true' (by simpa using hex)] using hfree
    · obtain ⟨⟨t'', ready''⟩, hpick, heq⟩ := Option.map_eq_some_iff.1 h
      obtain ⟨rfl, rfl⟩ := Prod.mk.inj heq
      obtain ⟨hperm, hex⟩ := ih hpick
      exact ⟨(hperm.cons t').trans (List.Perm.swap _ _ _), hex⟩

theorem pickTask_none {busy : Bool} {ready : List Task} (h : S.pickTask busy ready = none)
    (hne : ready ≠ []) : busy = true := by
  cases ready with
  | nil => exact absurd rfl hne
  | cons t ready =>
    rw [pickTask] at h
    split_ifs at h with hfree
    simp only [Bool.or_eq_true, Bool.not_eq_true', not_or, Bool.not_eq_false] at hfree
    exact hfree.2

/-- The state of an edge with one more task running. -/
def takeTask (S : Scheduler) (t : Task) (ready : List Task) (s : State) : State :=
  { s.update t.1 fun e => { e with running := e.running + 1 } with
    ready := ready, inFlight := s.inFlight + 1, started := s.started ++ [t]
    exclusiveBusy := s.exclusiveBusy || !S.graph.threadSafe t.1 }

theorem takeTask_st (ready : List Task) (v : ℕ) : ∃ n, (s.st v).running ≤ n ∧
    (S.takeTask t ready s).st v = { s.st v with running := n } := by
  by_cases hv : v = t.1
  · exact ⟨(s.st v).running + 1, Nat.le_succ _, by
      rw [hv]
      exact Function.update_self _ _ _⟩
  · exact ⟨(s.st v).running, le_rfl, Function.update_of_ne hv _ _⟩

/-- **A task of the queue may be taken.** -/
theorem Inv.take (h : S.Inv s act) {ready : List Task}
    (hpick : S.pickTask s.exclusiveBusy s.ready = some (t, ready)) :
    S.Inv (S.takeTask t ready s) (t :: act) ∧ Grows s (S.takeTask t ready s) := by
  obtain ⟨hperm, hex⟩ := pickTask_some hpick
  have hqueued (t' : Task) :
      queued ((S.takeTask t ready s).st t'.1) t'.2 = queued (s.st t'.1) t'.2 := by
    obtain ⟨n, -, heq⟩ := @takeTask_st S s t ready t'.1
    rw [heq]
    cases t'.2 with
    | none => rfl
    | some i => rfl
  have hgrows : Grows s (S.takeTask t ready s) := by
    refine ⟨fun _ ht => ht, fun v hv => ?_, fun v hv => ?_, fun _ _ => rfl⟩
    · obtain ⟨n, -, heq⟩ := @takeTask_st S s t ready v
      rwa [heq]
    · obtain ⟨n, -, heq⟩ := @takeTask_st S s t ready v
      rwa [heq]
  refine ⟨⟨fun v => ?_, fun t' => ?_, fun t' => ?_, fun t' ht' => ?_, fun v hf hs ho => ?_, ?_, ?_,
    fun v => ?_, ?_, h.failed_of_failure, h.cause⟩, hgrows⟩
  · obtain ⟨n, -, heq⟩ := @takeTask_st S s t ready v
    rw [heq]
    exact (h.edge v).of_running n
  · have hplace := h.place t'
    rw [hperm.count_eq, List.count_cons] at hplace
    rw [hqueued, List.count_cons]
    show ready.count t' + _ + s.completed.count t' + s.failures.count t' = _
    omega
  · have hstarted := h.started t'
    show (s.started ++ [t]).count t' = (t :: act).count t' + s.completed.count t' + _
    rw [List.count_append, List.count_singleton, List.count_cons]
    show _ = _ + s.failures.count t'
    omega
  · rw [hqueued] at ht'
    exact h.met_of_grows hgrows ht'
  · obtain ⟨n, -, heq⟩ := @takeTask_st S s t ready v
    rw [heq] at ho
    exact h.copied_of_grows hgrows hf hs ho
  · refine h.counted.trans (countP_congr_finished fun v => ?_).symm
    obtain ⟨n, -, heq⟩ := @takeTask_st S s t ready v
    rw [heq]
  · show s.inFlight + 1 = _
    rw [h.inFlight]
    rfl
  · have hrunning := h.running v
    by_cases hv : v = t.1
    · subst hv
      rw [List.countP_cons_of_pos (by simp), ← hrunning]
      show (Function.update s.st t.1 _ t.1).running = _
      rw [Function.update_self]
    · rw [List.countP_cons_of_neg (by simpa using Ne.symm hv), ← hrunning]
      show (Function.update s.st t.1 _ v).running = _
      rw [Function.update_of_ne hv]
  · have hbusy := h.busy
    show _ = if (s.exclusiveBusy || !S.graph.threadSafe t.1) = true then 1 else 0
    by_cases hsafe : S.graph.threadSafe t.1 = true
    · rw [List.countP_cons_of_neg (by simp [exclusive, hsafe]), hbusy, hsafe, Bool.not_true,
        Bool.or_false]
    · rw [hex (by simp [exclusive, hsafe]), if_neg Bool.false_ne_true] at hbusy
      rw [List.countP_cons_of_pos (by simp [exclusive, hsafe]), hbusy, if_pos]
      simp [hsafe]

/-- Taking a task leaves nothing more to queue. -/
theorem Quiet.take (h : S.Quiet s) (ready : List Task) : S.Quiet (S.takeTask t ready s) := by
  have hst := @takeTask_st S s t ready
  have hflags (v : ℕ) : ((S.takeTask t ready s).st v).opened = (s.st v).opened ∧
      ((S.takeTask t ready s).st v).finished = (s.st v).finished := by
    obtain ⟨n, -, heq⟩ := hst v
    rw [heq]
    exact ⟨rfl, rfl⟩
  have hcomplete (v : ℕ) : S.nodeComplete (S.takeTask t ready s) v = S.nodeComplete s v := by
    unfold nodeComplete stateOf
    split_ifs
    · exact (hflags v).2
    · rfl
  have hkeys (v : ℕ) : S.nodeFinalKeys (S.takeTask t ready s) v = S.nodeFinalKeys s v := by
    unfold nodeFinalKeys stateOf
    split_ifs
    · exact (hflags v).1
    · rfl
  have hitem (v : ℕ) (key : Key) :
      S.nodeItemDone (S.takeTask t ready s) v key = S.nodeItemDone s v key := by
    unfold nodeItemDone stateOf
    obtain ⟨n, -, heq⟩ := hst v
    rw [heq]
    split_ifs <;> rfl
  intro u hu
  obtain ⟨hrun, hopen, hqueue⟩ := h u hu
  obtain ⟨n, hn, heq⟩ := hst u
  refine ⟨fun hc => hrun ?_, fun hc => hopen ?_, fun i hc => hqueue i ?_⟩
  · unfold CanRun at hc ⊢
    simp only [hcomplete] at hc
    rw [heq] at hc
    exact ⟨hc.1, hc.2.1, hc.2.2.1, Nat.le_zero.1 (hn.trans hc.2.2.2.1.le), hc.2.2.2.2⟩
  · unfold CanOpen at hc ⊢
    simp only [hkeys] at hc
    rwa [heq] at hc
  · unfold CanQueue at hc ⊢
    simp only [hitem] at hc
    rwa [heq] at hc

/-! ## Critical sections -/

/-- What holds of the pool between critical sections. -/
structure Safe (S : Scheduler) (s : State) : Prop where
  inv : S.Inv s s.active
  restored : S.AllRestored s
  quiet : s.failed = false → S.Quiet s
  stalled : s.stalled = false
  returned : .returned ∈ s.workers → s.failed = true ∨ S.numEdges ≤ s.finishedEdges
  waiting : .waiting ∈ s.workers → s.active ≠ []
  workers : s.workers ≠ []

namespace Safe

theorem workers_set (h : S.Safe s) (w : ℕ) (x : Worker) : s.workers.set w x ≠ [] :=
  mt (List.set_eq_nil_iff w x).1 h.workers

/-- A worker returns once the build failed or every edge is finished. -/
theorem giveUp (h : S.Safe s) (hw : s.workers[w]? = some x) (hx : x.task = none)
    (hdone : s.failed = true ∨ S.numEdges ≤ s.finishedEdges) :
    S.Safe (s.setWorker w .returned).notifyAll := by
  have hperm := State.active_setWorker hw hx (y := .returned) rfl
  refine ⟨?_, h.restored, h.quiet, h.stalled, fun _ => hdone,
    fun hw => absurd hw (State.not_waiting_notifyAll _),
    List.map_eq_nil_iff.not.2 (h.workers_set w _)⟩
  rw [State.active_notifyAll]
  exact h.inv.of_workers hperm.symm _ _ _

/-- A worker at the head of its loop never finds that the build stalled. -/
theorem head (h : S.Safe s) (hw : s.workers[w]? = some x) (hx : x.task = none) :
    S.Safe (S.head w s) := by
  unfold Scheduler.head
  by_cases hdone : (s.failed || decide (S.numEdges ≤ s.finishedEdges)) = true
  · rw [if_pos hdone]
    rw [Bool.or_eq_true, decide_eq_true_iff] at hdone
    exact h.giveUp hw hx hdone
  · rw [if_neg hdone]
    simp only [Bool.or_eq_true, decide_eq_true_iff, not_or, Bool.not_eq_true] at hdone
    obtain ⟨hfailed, hmore⟩ := hdone
    cases hpick : S.pickTask s.exclusiveBusy s.ready with
    | some r =>
      obtain ⟨t, ready⟩ := r
      obtain ⟨hinv, hgrows⟩ := h.inv.take hpick
      have hperm := State.active_take hw hx t
      have hrestored := h.restored.mono hgrows
      show S.Safe ((S.takeTask t ready s).setWorker w (.running t))
      refine ⟨?_, hrestored, fun _ => (h.quiet hfailed).take ready, h.stalled,
        fun hret => ?_, fun _ hnil => ?_, h.workers_set w _⟩
      · exact hinv.of_workers hperm.symm _ _ _
      · rcases List.mem_or_eq_of_mem_set hret with hret | hret
        · exact h.returned hret
        · cases hret
      · exact absurd (hperm.length_eq.symm.trans (congrArg List.length hnil)) (by simp)
    | none =>
      have hne : s.active ≠ [] := by
        intro hnil
        have hinv := h.inv
        rw [hnil] at hinv
        by_cases hready : s.ready = []
        · exact hmore (numEdges_le hinv fun u hu =>
            hinv.finished_of_quiet h.restored (h.quiet hfailed) hready hfailed hu)
        · have hbusy := hinv.busy
          rw [pickTask_none hpick hready] at hbusy
          cases hbusy
      have hlength : s.inFlight ≠ 0 := by
        rw [h.inv.inFlight]
        exact fun hzero => hne (List.eq_nil_of_length_eq_zero hzero)
      dsimp only
      rw [if_neg fun hstall => hlength hstall.2]
      have hperm := State.active_setWorker hw hx (y := .waiting) rfl
      refine ⟨h.inv.of_workers hperm.symm _ _ _, h.restored, h.quiet, h.stalled, fun hret => ?_,
        fun _ hnil => ?_, h.workers_set w _⟩
      · rcases List.mem_or_eq_of_mem_set hret with hret | hret
        · exact h.returned hret
        · cases hret
      · rw [hnil] at hperm
        exact hne hperm.symm.eq_nil

/-- The invariant with the task of a worker in front. -/
theorem inv_release (h : S.Safe s) (hw : s.workers[w]? = some (.running t)) :
    S.Inv s (t :: (s.setWorker w .ready).active) :=
  h.inv.of_workers (State.active_release hw rfl) s.workers s.seenPaths s.stalled

theorem lt_of_getElem? (hw : s.workers[w]? = some x) : w < s.workers.length :=
  (List.getElem?_eq_some_iff.1 hw).1

theorem failure (h : S.Safe s) (hw : s.workers[w]? = some (.running t)) :
    S.Safe (S.head w (S.fold t .failure (S.release w t s)).notifyAll) := by
  obtain ⟨hinv, hgrows⟩ := (h.inv_release hw).fail w
  have heq := @fold_failure S t (S.release w t s)
  have hworkers : (S.fold t .failure (S.release w t s)).workers[w]? = some .ready := by
    rw [heq]
    exact List.getElem?_set_self (lt_of_getElem? hw)
  have hfailed : (S.fold t .failure (S.release w t s)).failed = true := by rw [heq]
  have hrestored := h.restored.mono hgrows
  refine head (x := .ready) ⟨?_, hrestored, fun hf => ?_, ?_, fun _ => Or.inl hfailed,
    fun hw => absurd hw (State.not_waiting_notifyAll _), ?_⟩ (State.getElem?_notifyAll hworkers) rfl
  · rw [State.active_notifyAll, State.active, heq]
    rw [heq] at hinv
    exact hinv.of_workers (List.Perm.refl _) _ _ _
  · exact absurd (hf.symm.trans hfailed) (by simp)
  · show (S.fold t .failure (S.release w t s)).stalled = false
    rw [heq]
    exact h.stalled
  · refine List.map_eq_nil_iff.not.2 ?_
    rw [heq]
    exact h.workers_set w _

theorem finishedEdges_mono (h : S.Inv s act) {act' : List Task} (h' : S.Inv s' act')
    (hg : Grows s s') : s.finishedEdges ≤ s'.finishedEdges := by
  rw [h.counted, h'.counted]
  exact List.countP_mono_left fun v _ hv => hg.finished v hv

theorem rescans (h : S.Inv s act) (hr : S.AllRestored s) (hs : S.Rescans s s') :
    S.Scanned act s s' ∧ (s'.failed = false → S.Quiet s') := by
  unfold Rescans at hs
  split_ifs at hs with hfailed
  · subst hs
    exact ⟨⟨h, Grows.refl s', rfl⟩, fun hf => absurd (hf.symm.trans hfailed) (by simp)⟩
  · obtain ⟨fuel, hs⟩ := hs
    exact rescan_scanned h hr hs

theorem success (h : S.Safe s) (hw : s.workers[w]? = some (.running t)) {o : Outcome}
    (ho : o.Fits t) (hs : S.Rescans (S.fold t o (S.release w t s)) s') :
    S.Safe (S.finish w s') := by
  obtain ⟨hinv, hgrows, e, l, hsucceeds⟩ := (h.inv_release hw).succeed w ho
  obtain ⟨hscanned, hquiet⟩ := rescans hinv (h.restored.mono hgrows) hs
  have hworkers : s'.workers = s.workers.set w .ready := by
    rw [hscanned.frame]
    exact Succeeds.workers ho
  have hready : s'.notifyAll.workers[w]? = some .ready := by
    refine State.getElem?_notifyAll ?_
    rw [hworkers]
    exact List.getElem?_set_self (lt_of_getElem? hw)
  have hrestored := h.restored.mono (hgrows.trans hscanned.grows)
  have hmono := finishedEdges_mono h.inv hscanned.inv (hgrows.trans hscanned.grows)
  have hsafe : S.Safe s'.notifyAll := by
    refine ⟨?_, hrestored, hquiet, ?_, fun hret => ?_,
      fun hw => absurd hw (State.not_waiting_notifyAll _),
      List.map_eq_nil_iff.not.2 (hworkers ▸ h.workers_set w _)⟩
    · rw [State.active_notifyAll, State.active, hworkers]
      exact hscanned.inv.of_workers (List.Perm.refl _) _ _ _
    · show s'.stalled = false
      rw [hscanned.frame]
      exact hsucceeds.stalled.trans h.stalled
    · have hret' := State.mem_notifyAll_returned hret
      rw [hworkers] at hret'
      rcases List.mem_or_eq_of_mem_set hret' with hret' | hret'
      · rcases h.returned hret' with hfailed | hdone
        · refine Or.inl ?_
          show s'.failed = true
          rw [hscanned.frame]
          exact hsucceeds.failed hfailed
        · exact Or.inr (hdone.trans hmono)
      · cases hret'
  unfold Scheduler.finish
  split_ifs with hdone
  · exact hsafe.giveUp hready rfl (Or.inr hdone)
  · exact hsafe.head hready rfl

/-- **Every critical section keeps the pool safe.** -/
theorem step (h : S.Safe s) (hstep : S.Step s s') : S.Safe s' := by
  cases hstep with
  | look hw =>
    rcases hw with hw | hw
    · exact h.head hw rfl
    · exact h.head hw rfl
  | failure hw => exact h.failure hw
  | success hw ho hs => exact h.success hw ho hs

end Safe

end Scheduler

end MlirAie.Engine
