import MlirAie.Engine.Queue
import MlirAie.Lib.Passes

/-!
# The rescan

* `Scanned`: what the steps of a rescan keep;
* **`rescan_scanned`**: a rescan that does not fail leaves nothing to queue or to open;
* **`rescan_halts`**: a rescan ends.
-/

namespace MlirAie.Engine

open MlirAie.Lib Relation

namespace Scheduler

variable {S : Scheduler} {s s' s'' : State} {act : List Task} {u v i : ℕ}

/-! ## What a visit may do -/

/-- A structural edge whose inputs are complete was not queued yet. -/
def CanRun (S : Scheduler) (u : ℕ) (s : State) : Prop :=
  (s.st u).finished = false ∧ S.graph.fan u = false ∧ (s.st u).wholeQueued = false ∧
    (s.st u).running = 0 ∧ ∀ v ∈ S.graph.inputs u, S.nodeComplete s v = true

/-- The keys of the inputs of an edge that was not opened are final. -/
def CanOpen (S : Scheduler) (u : ℕ) (s : State) : Prop :=
  (s.st u).finished = false ∧ S.graph.fan u = true ∧ (s.st u).opened = false ∧
    ∀ v ∈ S.graph.inputs u, S.nodeFinalKeys s v = true

/-- An item whose inputs are done was not queued yet. -/
def CanQueue (S : Scheduler) (u i : ℕ) (s : State) : Prop :=
  (s.st u).finished = false ∧ S.graph.fan u = true ∧ (s.st u).opened = true ∧
    (s.st u).itemState[i]? = some 0 ∧ ∀ v ∈ S.graph.inputs u,
      S.nodeItemDone s v (itemKey s u i) = true

/-- Nothing to queue or to open at an edge. -/
def Settled (S : Scheduler) (u : ℕ) (s : State) : Prop :=
  ¬S.CanRun u s ∧ ¬S.CanOpen u s ∧ ∀ i, ¬S.CanQueue u i s

/-- One change that a rescan makes. -/
inductive Scan (S : Scheduler) : State → State → Prop
  | run {s : State} {u : ℕ} (hu : u ∈ S.edges) (h : S.CanRun u s) :
      S.Scan s (queueTask (u, none) (fun e => { e with wholeQueued := true }) s)
  | openEdge {s : State} {u : ℕ} (hu : u ∈ S.edges) (h : S.CanOpen u s) :
      S.Scan s (S.openEdge u s)
  | queue {s : State} {u i : ℕ} (hu : u ∈ S.edges) (h : S.CanQueue u i s) :
      S.Scan s (queueTask (u, some i) (fun e => { e with itemState := e.itemState.set i 1 }) s)

theorem queueTask_opened {t : Task} {f : EdgeState → EdgeState} (hf : ∀ e, (f e).opened = e.opened)
    (v : ℕ) : ((queueTask t f s).st v).opened = (s.st v).opened := by
  by_cases hv : v = t.1
  · rw [hv, queueTask_st_self, hf]
  · rw [queueTask_st_of_ne hv]

theorem queueTask_finished {t : Task} {f : EdgeState → EdgeState}
    (hf : ∀ e, (f e).finished = e.finished) (v : ℕ) :
    ((queueTask t f s).st v).finished = (s.st v).finished := by
  by_cases hv : v = t.1
  · rw [hv, queueTask_st_self, hf]
  · rw [queueTask_st_of_ne hv]

theorem Scan.open_edge (h : S.Scan s s')
    (hu : (s.st u).opened = true ∧ (s.st u).finished = false) :
    (s'.st u).opened = true ∧ (s'.st u).finished = false := by
  cases h with
  | run _ _ =>
    exact ⟨(queueTask_opened (by intro e; rfl) u).trans hu.1,
      (queueTask_finished (by intro e; rfl) u).trans hu.2⟩
  | queue _ _ =>
    exact ⟨(queueTask_opened (by intro e; rfl) u).trans hu.1,
      (queueTask_finished (by intro e; rfl) u).trans hu.2⟩
  | @openEdge v _ hv =>
    have hne : u ≠ v := fun heq => by
      subst heq
      exact absurd (hv.2.2.1.symm.trans hu.1) (by simp)
    rwa [openEdge_st_of_ne hne]

theorem visitItem_visits (hu : u ∈ S.edges) (hf : S.graph.fan u = true) (r : State × Bool)
    (hopen : (r.1.st u).opened = true ∧ (r.1.st u).finished = false) :
    Visits S.Scan (fun s => ¬S.CanQueue u i s) r (S.visitItem u r i) := by
  unfold visitItem
  dsimp only
  split_ifs with h
  · simp only [Bool.and_eq_true, decide_eq_true_iff, List.all_eq_true] at h
    exact Visits.single (Scan.queue hu ⟨hopen.2, hf, hopen.1, h.1, h.2⟩)
  · refine Visits.idle fun hq => h ?_
    simp only [Bool.and_eq_true, decide_eq_true_iff, List.all_eq_true]
    exact ⟨hq.2.2.2.1, hq.2.2.2.2⟩

theorem visitEdge_visits (hu : u ∈ S.edges) (r : State × Bool) :
    Visits S.Scan (fun s => s.failed = true ∨ S.Settled u s) r (S.visitEdge r u) := by
  unfold visitEdge
  dsimp only
  by_cases hfailed : r.1.failed = true
  · rw [if_pos hfailed]
    exact Visits.idle (Or.inl hfailed)
  rw [if_neg hfailed]
  by_cases hfin : (r.1.st u).finished = true
  · rw [if_pos hfin]
    have hne : (r.1.st u).finished ≠ false := fun h => by simp [h] at hfin
    exact Visits.idle (Or.inr ⟨fun h => hne h.1, fun h => hne h.1, fun i h => hne h.1⟩)
  rw [if_neg hfin]
  have hfin := Bool.eq_false_of_not_eq_true hfin
  cases hf : S.graph.fan u with
  | false =>
    have hnofan : S.graph.fan u ≠ true := by simp [hf]
    have hsettled (h : ¬S.CanRun u r.1) : S.Settled u r.1 :=
      ⟨h, fun h => hnofan h.2.1, fun i h => hnofan h.2.1⟩
    simp only [Bool.not_false, if_true]
    split_ifs with hqueued hdeps
    · refine Visits.idle (Or.inr (hsettled fun h => ?_))
      rw [h.2.2.1, h.2.2.2.1] at hqueued
      cases hqueued
    · simp only [Bool.or_eq_true, decide_eq_true_iff, not_or, Bool.not_eq_true, not_lt,
        Nat.le_zero] at hqueued
      exact Visits.single
        (Scan.run hu ⟨hfin, hf, hqueued.1, hqueued.2, List.all_eq_true.1 hdeps⟩)
    · exact Visits.idle (Or.inr (hsettled fun h => hdeps (List.all_eq_true.2 h.2.2.2.2)))
  | true =>
    have hfan : S.graph.fan u ≠ false := by simp [hf]
    simp only [Bool.not_true, Bool.false_eq_true, if_false]
    split_ifs with hopen hkeys
    · have hitems := @visits_foldl _ _ S.Scan (fun i s => ¬S.CanQueue u i s)
        (fun s => (s.st u).opened = true ∧ (s.st u).finished = false) (S.visitItem u)
        (fun _ _ hs hstep => hstep.open_edge hs) (List.range (r.1.st u).itemState.length)
        (fun i _ r hr => visitItem_visits hu hf r hr) r ⟨hopen, hfin⟩
      rcases hitems with ⟨heq, hidle⟩ | hsteps
      · refine Or.inl ⟨heq, Or.inr ⟨fun h => hfan h.2.1, fun h => ?_, fun i h => ?_⟩⟩
        · exact absurd (h.2.2.1.symm.trans hopen) (by simp)
        · obtain ⟨hlt, _⟩ := List.getElem?_eq_some_iff.1 h.2.2.2.1
          exact hidle i (List.mem_range.2 hlt) h
      · exact Or.inr hsteps
    · exact Visits.single (Scan.openEdge hu
        ⟨hfin, hf, Bool.eq_false_of_not_eq_true hopen, List.all_eq_true.1 hkeys⟩)
    · exact Visits.idle (Or.inr ⟨fun h => hfan h.2.1,
        fun h => hkeys (List.all_eq_true.2 h.2.2.2), fun i h => hopen h.2.2.1⟩)

/-! ## What the steps keep -/

/-- The members that no step of a rescan changes, and what it keeps. -/
structure Scanned (S : Scheduler) (act : List Task) (s s' : State) : Prop where
  inv : S.Inv s' act
  grows : Grows s s'
  frame : s' = { s with
    st := s'.st, items := s'.items, ready := s'.ready, finishedEdges := s'.finishedEdges }

theorem Scan.scanned (h : S.Inv s act) (hr : S.AllRestored s) (hstep : S.Scan s s') :
    S.Scanned act s s' := by
  have hsat {u : ℕ} (hu : u ∈ S.edges) (hfin : (s.st u).finished = false) :
      S.satisfied u = false := by
    by_contra hs
    exact absurd (hfin.symm.trans (hr u hu (Bool.eq_true_of_not_eq_false hs))) (by simp)
  cases hstep with
  | @run u hu hc =>
    obtain ⟨hinv, hgrows⟩ := h.queueWhole hu (hsat hu hc.1) hc.2.1 hc.2.2.1 hc.2.2.2.2
    exact ⟨hinv, hgrows, rfl⟩
  | @openEdge u hu hc =>
    obtain ⟨hinv, hgrows⟩ := h.openEdge hu hc.2.1 (hsat hu hc.1) hc.2.2.1 hc.2.2.2
    exact ⟨hinv, hgrows, by rw [openEdge_eq]; rfl⟩
  | @queue u i hu hc =>
    obtain ⟨hinv, hgrows⟩ := h.queueItem hc.2.2.2.1 hc.2.2.2.2
    exact ⟨hinv, hgrows, rfl⟩

theorem Scanned.trans (h : S.Scanned act s s') (h' : S.Scanned act s' s'') :
    S.Scanned act s s'' where
  inv := h'.inv
  grows := h.grows.trans h'.grows
  frame := by
    have hs := h'.frame
    rw [h.frame] at hs
    exact hs

theorem scanned_of_scans (h : S.Inv s act) (hr : S.AllRestored s)
    (hsteps : ReflTransGen S.Scan s s') : S.Scanned act s s' := by
  induction hsteps with
  | refl => exact ⟨h, Grows.refl s, rfl⟩
  | tail _ hstep ih => exact ih.trans (hstep.scanned ih.inv (hr.mono ih.grows))

/-- Nothing to queue or to open. -/
def Quiet (S : Scheduler) (s : State) : Prop := ∀ u ∈ S.edges, S.Settled u s

theorem rescanLoop_eq : S.rescanLoop = passes State.failed S.visitEdge S.edges := rfl

/-- **A rescan** keeps the invariant, and leaves nothing to queue or to open unless it fails. -/
theorem rescan_scanned (h : S.Inv s act) (hr : S.AllRestored s) {fuel : ℕ}
    (hs : S.rescan fuel s = some s') :
    S.Scanned act s s' ∧ (s'.failed = false → S.Quiet s') := by
  unfold rescan at hs
  cases hrun : S.rescanLoop.run fuel (s, true) with
  | none =>
    rw [hrun] at hs
    cases hs
  | some r =>
    rw [hrun] at hs
    cases r with
    | error e => exact e.elim
    | ok r =>
      obtain rfl := Option.some.inj hs
      obtain ⟨hsteps, hend⟩ := passes_run (fun u hu r => visitEdge_visits hu r) (Or.inl rfl)
        (rescanLoop_eq ▸ hrun)
      refine ⟨scanned_of_scans h hr hsteps, fun hfailed u hu => ?_⟩
      rcases hend with hend | hend
      · exact absurd (hfailed.symm.trans hend) (by simp)
      · exact (hend u hu).resolve_left (by simp [hfailed])

/-! ## The end of a rescan -/

/-- The fan-out edges that were not opened. -/
def unopened (S : Scheduler) (s : State) : ℕ :=
  (S.edges.map fun u => if S.graph.fan u && !(s.st u).opened then 1 else 0).sum

/-- The tasks of opened edges that were not queued. -/
def unqueued (S : Scheduler) (s : State) : ℕ :=
  (S.edges.map fun u =>
    (if (s.st u).wholeQueued then 0 else 1) + (s.st u).itemState.count 0).sum

theorem unopened_queueTask {t : Task} {f : EdgeState → EdgeState}
    (hf : ∀ e, (f e).opened = e.opened) : S.unopened (queueTask t f s) = S.unopened s := by
  unfold unopened
  simp only [queueTask_opened hf]

theorem unqueued_queueTask {t : Task} {f : EdgeState → EdgeState} (hu : t.1 ∈ S.edges)
    (hf : (if (f (s.st t.1)).wholeQueued then 0 else 1) + (f (s.st t.1)).itemState.count 0 <
      (if (s.st t.1).wholeQueued then 0 else 1) + (s.st t.1).itemState.count 0) :
    S.unqueued (queueTask t f s) < S.unqueued s := by
  unfold unqueued
  refine List.sum_lt_sum _ _ (fun v _ => ?_) ⟨t.1, hu, ?_⟩
  · by_cases hv : v = t.1
    · rw [hv, queueTask_st_self]
      exact hf.le
    · rw [queueTask_st_of_ne hv]
  · rw [queueTask_st_self]
    exact hf

theorem unopened_openEdge (hu : u ∈ S.edges) (h : S.CanOpen u s) :
    S.unopened (S.openEdge u s) < S.unopened s := by
  have hself : ((S.openEdge u s).st u).opened = true := by
    rw [openEdge_st_self]
    rfl
  unfold unopened
  refine List.sum_lt_sum _ _ (fun v _ => ?_) ⟨u, hu, ?_⟩
  · by_cases hv : v = u
    · subst hv
      rw [hself, Bool.not_true, Bool.and_false]
      exact Nat.zero_le _
    · rw [openEdge_st_of_ne hv]
  · rw [hself, h.2.1, h.2.2.1]
    exact Nat.zero_lt_one

/-- Each step of a rescan opens an edge, or leaves fewer tasks to queue. -/
theorem Scan.decreases (h : S.Scan s s') :
    toLex (S.unopened s', S.unqueued s') < toLex (S.unopened s, S.unqueued s) := by
  rw [Prod.Lex.toLex_lt_toLex]
  cases h with
  | @openEdge u hu hc => exact Or.inl (unopened_openEdge hu hc)
  | @run u hu hc =>
    refine Or.inr ⟨unopened_queueTask (by intro e; rfl), unqueued_queueTask hu ?_⟩
    show (if true = true then 0 else 1) + (s.st u).itemState.count 0 < _
    rw [hc.2.2.1, if_pos rfl]
    simp
  | @queue u i hu hc =>
    refine Or.inr ⟨unopened_queueTask (by intro e; rfl), unqueued_queueTask hu ?_⟩
    obtain ⟨hlt, hget⟩ := List.getElem?_eq_some_iff.1 hc.2.2.2.1
    have hcount : 0 < (s.st u).itemState.count 0 :=
      List.count_pos_iff.2 (List.mem_of_getElem? hc.2.2.2.1)
    show _ + ((s.st u).itemState.set i 1).count 0 < _
    rw [List.count_set hlt, hget]
    simp only [beq_self_eq_true, if_true, Nat.one_ne_zero, beq_iff_eq, if_false]
    exact Nat.add_lt_add_left (by omega) _

/-- **A rescan ends.** -/
theorem rescan_halts (S : Scheduler) (s : State) : ∃ fuel s', S.rescan fuel s = some s' := by
  have hwf : WellFounded fun s' s => S.Scan s s' :=
    Subrelation.wf (fun h => Scan.decreases h)
      (InvImage.wf (fun s => toLex (S.unopened s, S.unqueued s)) wellFounded_lt)
  obtain ⟨fuel, r, hr⟩ := @passes_halts _ _ _ _ State.failed S.visitEdge S.edges hwf
    (fun u hu r => visitEdge_visits hu r) s true
  refine ⟨fuel, r.1, ?_⟩
  unfold rescan
  rw [rescanLoop_eq, hr]

end Scheduler

end MlirAie.Engine
