import MlirAie.Engine.Queue

/-!
# Folding a task back

* `Settles`: what the end of a task changes outside of its edge;
* **`Inv.succeed`**, **`Inv.fail`**: a task that ends keeps the invariant.
-/

namespace MlirAie.Engine

open MlirAie.Lib

namespace Scheduler

variable {S : Scheduler} {s s' : State} {act : List Task} {u v w i : ℕ} {t : Task}

/-! ## A task in the hands of a worker -/

theorem Inv.queued_of_active (h : S.Inv s (t :: act)) : queued (s.st t.1) t.2 = true := by
  have hplace := h.place t
  rw [List.count_cons_self] at hplace
  by_contra hq
  rw [if_neg hq] at hplace
  omega

theorem Inv.not_completed_of_active (h : S.Inv s (t :: act)) :
    s.completed.count t = 0 ∧ s.failures.count t = 0 ∧ s.ready.count t = 0 ∧ act.count t = 0 := by
  have hplace := h.place t
  rw [List.count_cons_self, if_pos h.queued_of_active] at hplace
  omega

theorem Inv.item_of_active (h : S.Inv s ((u, some i) :: act)) :
    S.graph.fan u = true ∧ S.satisfied u = false ∧ (s.st u).opened = true ∧
      i < (s.st u).itemState.length ∧ (s.st u).itemState[i]? ≠ some 2 := by
  have he := h.edge u
  have hq := h.queued_of_active
  have hi : i < (s.st u).itemState.length := by
    by_contra hlt
    have hnone : (s.st u).itemState[i]? = none := List.getElem?_eq_none (by omega)
    simp [queued, hnone] at hq
  obtain ⟨hf, ho, hs⟩ := he.slots (List.ne_nil_of_length_pos (by omega))
  refine ⟨hf, hs, ho, hi, fun hdone => ?_⟩
  have hpos : 0 < s.completed.count (u, some i) := (he.done i).1 hdone
  have hzero := h.not_completed_of_active.1
  omega

/-! ## The members of the state -/

/-- What the end of task `t` changes outside of its edge. -/
structure Settles (S : Scheduler) (t : Task) (s s' : State) : Prop where
  ready : s'.ready = s.ready
  started : s'.started = s.started
  ended : (s'.completed = s.completed ++ [t] ∧ s'.failures = s.failures) ∨
    (s'.completed = s.completed ∧ s'.failures = s.failures ++ [t])
  st : ∀ v, v ≠ t.1 → s'.st v = s.st v
  items : ∀ v, v ≠ t.1 → s'.items v = s.items v
  queued : ∀ i, queued (s'.st t.1) i = queued (s.st t.1) i
  running : (s'.st t.1).running = (s.st t.1).running - 1
  opened : S.graph.fan t.1 = true → (s'.st t.1).opened = true → (s.st t.1).opened = true
  inFlight : s'.inFlight = s.inFlight - 1
  busy : s'.exclusiveBusy = if S.graph.threadSafe t.1 then s.exclusiveBusy else false

namespace Settles

theorem count_ended (h : S.Settles t s s') (t' : Task) :
    s'.completed.count t' + s'.failures.count t' =
      s.completed.count t' + s.failures.count t' + if t = t' then 1 else 0 := by
  rcases h.ended with ⟨hc, hf⟩ | ⟨hc, hf⟩
  · rw [hc, hf, List.count_append, List.count_singleton]
    simp only [beq_iff_eq]
    omega
  · rw [hc, hf, List.count_append, List.count_singleton]
    simp only [beq_iff_eq]
    omega

theorem count_completed (h : S.Settles t s s') {t' : Task} (ht : t' ≠ t) :
    s'.completed.count t' = s.completed.count t' := by
  rcases h.ended with ⟨hc, -⟩ | ⟨hc, -⟩
  · rw [hc, List.count_append, List.count_singleton, if_neg (by simpa using ht.symm), Nat.add_zero]
  · rw [hc]

theorem queued_eq (h : S.Settles t s s') (t' : Task) :
    Engine.queued (s'.st t'.1) t'.2 = Engine.queued (s.st t'.1) t'.2 := by
  by_cases hv : t'.1 = t.1
  · rw [hv]
    exact h.queued t'.2
  · rw [h.st t'.1 hv]

end Settles

/-- The end of a task, given what becomes of its edge. -/
theorem Inv.settle (h : S.Inv s (t :: act)) (hs : S.Settles t s s') (hg : Grows s s')
    (hedge : S.EdgeInv (fun i => s'.completed.count (t.1, i)) t.1 (s'.st t.1) (s'.items t.1))
    (hcounted : s'.finishedEdges = S.edges.countP fun u => (s'.st u).finished)
    (hfailed : s'.failures ≠ [] → s'.failed = true)
    (hcause : s'.failed = true → s'.failures ≠ [] ∨ s'.duplicates ≠ []) : S.Inv s' act := by
  refine ⟨fun v => ?_, fun t' => ?_, fun t' => ?_, fun t' ht' => ?_, fun v hf hsat ho => ?_,
    hcounted, ?_, fun v => ?_, ?_, hfailed, hcause⟩
  · by_cases hv : v = t.1
    · rw [hv]
      exact hedge
    · exact h.edge_of_ne (hs.st v hv) (hs.items v hv) fun i =>
        hs.count_completed fun heq => hv (congrArg Prod.fst heq)
  · have hplace := h.place t'
    have hended := hs.count_ended t'
    rw [List.count_cons] at hplace
    simp only [beq_iff_eq] at hplace
    rw [hs.queued_eq, hs.ready]
    omega
  · have hstarted := h.started t'
    have hended := hs.count_ended t'
    rw [List.count_cons] at hstarted
    simp only [beq_iff_eq] at hstarted
    rw [hs.started]
    omega
  · rw [hs.queued_eq] at ht'
    exact h.met_of_grows hg ht'
  · refine h.copied_of_grows hg hf hsat ?_
    by_cases hv : v = t.1
    · subst hv
      exact hs.opened hf ho
    · rwa [← hs.st v hv]
  · rw [hs.inFlight, h.inFlight, List.length_cons, Nat.add_sub_cancel]
  · have hrunning := h.running v
    by_cases hv : v = t.1
    · subst hv
      rw [hs.running, hrunning, List.countP_cons_of_pos (by simp), Nat.add_sub_cancel]
    · rw [hs.st v hv, hrunning, List.countP_cons_of_neg (by simpa using Ne.symm hv)]
  · have hbusy := h.busy
    rw [hs.busy]
    by_cases hsafe : S.graph.threadSafe t.1 = true
    · rw [List.countP_cons_of_neg (by simp [exclusive, hsafe])] at hbusy
      rw [if_pos hsafe, hbusy]
    · rw [List.countP_cons_of_pos (by simp [exclusive, hsafe])] at hbusy
      rw [if_neg hsafe, if_neg Bool.false_ne_true]
      by_cases hb : s.exclusiveBusy = true
      · rw [if_pos hb] at hbusy
        omega
      · rw [if_neg hb] at hbusy
        omega

/-! ## Failures -/

theorem fold_failure (t : Task) (s : State) :
    S.fold t .failure s = { s with failed := true, failures := s.failures ++ [t] } := by
  unfold fold
  cases t.2 with
  | none => rfl
  | some i => rfl

theorem release_st_of_ne (hv : v ≠ t.1) : (S.release w t s).st v = s.st v :=
  Function.update_of_ne hv _ _

theorem release_st_self (S : Scheduler) (w : ℕ) (t : Task) (s : State) :
    (S.release w t s).st t.1 = { s.st t.1 with running := (s.st t.1).running - 1 } :=
  Function.update_self _ _ _

theorem release_grows (S : Scheduler) (w : ℕ) (t : Task) (s : State) :
    Grows s (S.release w t s) := by
  refine ⟨fun _ h => h, fun v h => ?_, fun v h => ?_, fun _ _ => rfl⟩
  · by_cases hv : v = t.1
    · subst hv
      rwa [release_st_self]
    · rwa [release_st_of_ne hv]
  · by_cases hv : v = t.1
    · subst hv
      rwa [release_st_self]
    · rwa [release_st_of_ne hv]

theorem EdgeInv.of_running {c : Option ℕ → ℕ} {e : EdgeState} {items : List Item}
    (h : S.EdgeInv c u e items) (n : ℕ) : S.EdgeInv c u { e with running := n } items :=
  ⟨h.mem, h.kind, h.slots, h.done, h.itemsDone, h.whole, h.openedWhole, h.fanFinished,
    h.finished_opened, h.length, h.lookup, h.keysNodup⟩

/-- **A task that fails** keeps the invariant. -/
theorem Inv.fail (h : S.Inv s (t :: act)) (w : ℕ) :
    S.Inv (S.fold t .failure (S.release w t s)) act ∧
      Grows s (S.fold t .failure (S.release w t s)) := by
  rw [fold_failure]
  have hne : (S.release w t s).failures ++ [t] ≠ [] :=
    List.append_ne_nil_of_right_ne_nil _ (List.cons_ne_nil _ _)
  have hg := release_grows S w t s
  have hgrows : Grows s
      { S.release w t s with failed := true, failures := (S.release w t s).failures ++ [t] } :=
    ⟨hg.completed, hg.opened, hg.finished, hg.keys⟩
  refine ⟨h.settle ⟨rfl, rfl, Or.inr ⟨rfl, rfl⟩, fun v hv => @release_st_of_ne S s v w t hv,
    fun _ _ => rfl, fun i => ?_, ?_, fun _ ho => ?_, rfl, rfl⟩ hgrows ?_ ?_ (fun _ => rfl)
    fun _ => Or.inl hne, hgrows⟩
  · show queued ((S.release w t s).st t.1) i = _
    rw [release_st_self]
    cases i with
    | none => rfl
    | some i => rfl
  · show ((S.release w t s).st t.1).running = _
    rw [release_st_self]
  · replace ho : ((S.release w t s).st t.1).opened = true := ho
    rwa [release_st_self] at ho
  · show S.EdgeInv _ t.1 ((S.release w t s).st t.1) _
    rw [release_st_self]
    exact (h.edge t.1).of_running _
  · refine h.counted.trans (countP_congr_finished fun v => ?_).symm
    show ((S.release w t s).st v).finished = _
    by_cases hv : v = t.1
    · subst hv
      rw [release_st_self]
    · rw [release_st_of_ne hv]

/-! ## Successes -/

/-- The edge of a structural task that succeeded. -/
def wholeDone (e : EdgeState) : EdgeState :=
  { e with running := e.running - 1, opened := true, finished := true }

/-- The edge of an item that was produced; it is finished with its last item. -/
def itemDone (i : ℕ) (e : EdgeState) : EdgeState :=
  { e with
    running := e.running - 1, itemState := e.itemState.set i 2, itemsDone := e.itemsDone + 1,
    finished := e.finished || decide (e.itemsDone + 1 = e.itemState.length) }

/-- The state after a task that succeeded: its edge becomes `e` and its node holds `l`. -/
structure Succeeds (S : Scheduler) (t : Task) (e : EdgeState) (l : List Item) (s s' : State) :
    Prop where
  ready : s'.ready = s.ready
  started : s'.started = s.started
  completed : s'.completed = s.completed ++ [t]
  failures : s'.failures = s.failures
  st : s'.st = Function.update s.st t.1 e
  items : s'.items = Function.update s.items t.1 l
  finishedEdges : s'.finishedEdges =
    s.finishedEdges + if e.finished && !(s.st t.1).finished then 1 else 0
  inFlight : s'.inFlight = s.inFlight - 1
  busy : s'.exclusiveBusy = if S.graph.threadSafe t.1 then s.exclusiveBusy else false
  failed : s.failed = true → s'.failed = true
  cause : s'.failed = true → s.failed = true ∨ s'.duplicates ≠ []
  duplicates : s.duplicates ≠ [] → s'.duplicates ≠ []
  stalled : s'.stalled = s.stalled

theorem Inv.of_succeeds (h : S.Inv s (t :: act)) {e : EdgeState} {l : List Item}
    (hs : S.Succeeds t e l s s')
    (hqueued : ∀ i, queued e i = queued (s.st t.1) i)
    (hrunning : e.running = (s.st t.1).running - 1)
    (hopened : (s.st t.1).opened = true → e.opened = true)
    (hfan : S.graph.fan t.1 = true → e.opened = true → (s.st t.1).opened = true)
    (hfinished : (s.st t.1).finished = true → e.finished = true)
    (hkeys : (s.st t.1).opened = true → l.map Item.key = (s.items t.1).map Item.key)
    (hedge : S.EdgeInv (fun i => (s.completed ++ [t]).count (t.1, i)) t.1 e l) :
    S.Inv s' act ∧ Grows s s' := by
  have hself : s'.st t.1 = e := by
    rw [hs.st]
    exact Function.update_self _ _ _
  have hne (v : ℕ) (hv : v ≠ t.1) : s'.st v = s.st v := by
    rw [hs.st]
    exact Function.update_of_ne hv _ _
  have hitems : s'.items t.1 = l := by
    rw [hs.items]
    exact Function.update_self _ _ _
  have hitemsNe (v : ℕ) (hv : v ≠ t.1) : s'.items v = s.items v := by
    rw [hs.items]
    exact Function.update_of_ne hv _ _
  have hgrows : Grows s s' := by
    refine ⟨fun t' ht' => ?_, fun v hv => ?_, fun v hv => ?_, fun v hv => ?_⟩
    · rw [hs.completed]
      exact List.mem_append_left _ ht'
    · by_cases hvt : v = t.1
      · subst hvt
        rw [hself]
        exact hopened hv
      · rwa [hne v hvt]
    · by_cases hvt : v = t.1
      · subst hvt
        rw [hself]
        exact hfinished hv
      · rwa [hne v hvt]
    · by_cases hvt : v = t.1
      · subst hvt
        rw [hitems]
        exact hkeys hv
      · rw [hitemsNe v hvt]
  refine ⟨h.settle ⟨hs.ready, hs.started, Or.inl ⟨hs.completed, hs.failures⟩, hne, hitemsNe,
    fun i => ?_, ?_, fun hf ho => ?_, hs.inFlight, hs.busy⟩ hgrows ?_ ?_ (fun hf => ?_)
    fun hf => ?_, hgrows⟩
  · rw [hself]
    exact hqueued i
  · rw [hself]
    exact hrunning
  · rw [hself] at ho
    exact hfan hf ho
  · rw [hself, hitems, hs.completed]
    exact hedge
  · have hmem : t.1 ∈ S.edges := (h.edge t.1).mem_of_queued h.queued_of_active
    rw [hs.finishedEdges, h.counted]
    by_cases hfin : (s.st t.1).finished = true
    · rw [hfin, Bool.not_true, Bool.and_false, if_neg Bool.false_ne_true, Nat.add_zero]
      refine (countP_congr_finished fun v => ?_).symm
      by_cases hv : v = t.1
      · subst hv
        rw [hself, hfin, hfinished hfin]
      · rw [hne v hv]
    · have hfin := Bool.eq_false_of_not_eq_true hfin
      cases he : e.finished with
      | false =>
        rw [Bool.false_and, if_neg Bool.false_ne_true, Nat.add_zero]
        refine (countP_congr_finished fun v => ?_).symm
        by_cases hv : v = t.1
        · subst hv
          rw [hself, hfin, he]
        · rw [hne v hv]
      | true =>
        rw [hfin, Bool.not_false, Bool.and_true, if_pos rfl]
        refine (countP_finish hmem hfin ?_ fun v hv => ?_).symm
        · rw [hself, he]
        · rw [hne v hv]
  · rw [hs.failures] at hf
    exact hs.failed (h.failed_of_failure hf)
  · rcases hs.cause hf with hf | hf
    · rcases h.cause hf with hf | hf
      · exact Or.inl (by rwa [hs.failures])
      · exact Or.inr (hs.duplicates hf)
    · exact Or.inr hf

theorem fold_whole (S : Scheduler) (w u : ℕ) (l : List Item) (s : State)
    (hfin : (s.st u).finished = false) :
    S.Succeeds (u, none) (wholeDone (s.st u)) l s
      (S.fold (u, none) (.items l) (S.release w (u, none) s)) := by
  have hfold : S.fold (u, none) (.items l) (S.release w (u, none) s) =
      S.noteFinished u
        { (S.release w (u, none) s).update u fun e => { e with opened := true, finished := true }
          with
          items := Function.update s.items u l, completed := s.completed ++ [(u, none)] } := rfl
  obtain ⟨seen, dup, failed, heq, hmono, hcause, hdup⟩ := noteFinished_eq S u
    { (S.release w (u, none) s).update u fun e => { e with opened := true, finished := true } with
      items := Function.update s.items u l, completed := s.completed ++ [(u, none)] }
  have hst : ((S.release w (u, none) s).update u fun e =>
      { e with opened := true, finished := true }).st =
        Function.update s.st u (wholeDone (s.st u)) := by
    show Function.update (Function.update s.st u _) u _ = _
    rw [Function.update_idem]
    congr 1
    show { (S.release w (u, none) s).st u with opened := true, finished := true } = _
    rw [release_st_self S w (u, none) s]
    rfl
  rw [hfold, heq]
  refine ⟨rfl, rfl, rfl, rfl, hst, rfl, ?_, rfl, rfl, hmono, hcause, hdup, rfl⟩
  show s.finishedEdges + 1 = _
  rw [hfin]
  rfl

/-- The state with an item produced, before its edge is looked at. -/
def produce (S : Scheduler) (w u i : ℕ) (p : Path) (s : State) : State :=
  { (S.release w (u, some i) s).update u fun e =>
      { e with itemState := e.itemState.set i 2, itemsDone := e.itemsDone + 1 } with
    items := Function.update s.items u ((s.items u).modify i fun it => { it with filePath := p })
    completed := s.completed ++ [(u, some i)] }

theorem fold_item_eq (S : Scheduler) (w u i : ℕ) (p : Path) (s : State) :
    S.fold (u, some i) (.path p) (S.release w (u, some i) s) =
      if ((S.produce w u i p s).st u).itemsDone = ((S.produce w u i p s).st u).itemState.length then
        S.noteFinished u ((S.produce w u i p s).update u fun e => { e with finished := true })
      else S.produce w u i p s := rfl

theorem produce_st (S : Scheduler) (w u i : ℕ) (p : Path) (s : State) :
    (S.produce w u i p s).st = Function.update s.st u
      { s.st u with
        running := (s.st u).running - 1, itemState := (s.st u).itemState.set i 2,
        itemsDone := (s.st u).itemsDone + 1 } := by
  show Function.update (Function.update s.st u _) u _ = _
  rw [Function.update_idem]
  congr 1
  show { (S.release w (u, some i) s).st u with
    itemState := ((S.release w (u, some i) s).st u).itemState.set i 2,
    itemsDone := ((S.release w (u, some i) s).st u).itemsDone + 1 } = _
  rw [release_st_self S w (u, some i) s]

theorem fold_item (S : Scheduler) (w u i : ℕ) (p : Path) (s : State)
    (hfin : (s.st u).finished = false) :
    S.Succeeds (u, some i) (itemDone i (s.st u))
      ((s.items u).modify i fun it => { it with filePath := p }) s
      (S.fold (u, some i) (.path p) (S.release w (u, some i) s)) := by
  have hst := produce_st S w u i p s
  have hself := congrFun hst u
  rw [Function.update_self] at hself
  have hcond : (((S.produce w u i p s).st u).itemsDone =
      ((S.produce w u i p s).st u).itemState.length) ↔
        (s.st u).itemsDone + 1 = (s.st u).itemState.length := by
    rw [hself, List.length_set]
  rw [fold_item_eq]
  by_cases hlast : (s.st u).itemsDone + 1 = (s.st u).itemState.length
  · rw [if_pos (hcond.2 hlast)]
    have hdone : itemDone i (s.st u) =
        { s.st u with
          running := (s.st u).running - 1, itemState := (s.st u).itemState.set i 2,
          itemsDone := (s.st u).itemsDone + 1, finished := true } := by
      unfold itemDone
      rw [decide_eq_true hlast, Bool.or_true]
    obtain ⟨seen, dup, failed, heq, hmono, hcause, hdup⟩ := noteFinished_eq S u
      ((S.produce w u i p s).update u fun e => { e with finished := true })
    rw [heq]
    refine ⟨rfl, rfl, rfl, rfl, ?_, rfl, ?_, rfl, rfl, hmono, hcause, hdup, rfl⟩
    · show Function.update (S.produce w u i p s).st u { (S.produce w u i p s).st u with
        finished := true } = _
      rw [hself, hst, Function.update_idem, hdone]
    · show s.finishedEdges + 1 = _
      rw [hdone, hfin]
      rfl
  · rw [if_neg (hcond.not.2 hlast)]
    have hdone : itemDone i (s.st u) =
        { s.st u with
          running := (s.st u).running - 1, itemState := (s.st u).itemState.set i 2,
          itemsDone := (s.st u).itemsDone + 1 } := by
      unfold itemDone
      rw [decide_eq_false hlast, Bool.or_false]
    refine ⟨rfl, rfl, rfl, rfl, ?_, rfl, ?_, rfl, rfl, id, Or.inl, id, rfl⟩
    · rw [hst, hdone]
    · rw [hdone, hfin]
      rfl

/-! ## The edge of a task that succeeded -/

theorem queued_wholeDone (e : EdgeState) (i : Option ℕ) : queued (wholeDone e) i = queued e i := by
  cases i with
  | none => rfl
  | some i => rfl

theorem EdgeInv.wholeDone {c : Option ℕ → ℕ} {e : EdgeState} {items l : List Item}
    (h : S.EdgeInv c u e items) (hq : queued e none = true) (hl : (l.map Item.key).Nodup)
    {c' : Option ℕ → ℕ} (hnone : 0 < c' none) (hsome : ∀ i, c' (some i) = c (some i)) :
    S.EdgeInv c' u (wholeDone e) l := by
  obtain ⟨hf, hs⟩ := h.kind hq
  have hnofan : S.graph.fan u ≠ true := by simp [hf]
  exact
    { mem := fun _ => h.mem (Or.inr hq)
      kind := h.kind
      slots := fun hne => absurd (h.slots hne).1 hnofan
      done := fun i => by
        rw [hsome]
        exact h.done i
      itemsDone := h.itemsDone
      whole := fun _ _ => iff_of_true rfl hnone
      openedWhole := fun _ => rfl
      fanFinished := fun hf' => absurd hf' hnofan
      finished_opened := fun _ => rfl
      length := fun hf' => absurd hf' hnofan
      lookup := fun hf' => absurd hf' hnofan
      keysNodup := fun _ => hl }

theorem map_key_modify (l : List Item) (i : ℕ) (p : Path) :
    (l.modify i fun it => { it with filePath := p }).map Item.key = l.map Item.key := by
  apply List.ext_getElem?
  intro j
  rw [List.getElem?_map, List.getElem?_map, List.getElem?_modify]
  cases l[j]? with
  | none => rfl
  | some it =>
    show some (Item.key (if i = j then _ else it)) = _
    by_cases hij : i = j
    · rw [if_pos hij]
      rfl
    · rw [if_neg hij]
      rfl

theorem queued_itemDone (e : EdgeState) (hq : queued e (some i) = true) (j : Option ℕ) :
    queued (itemDone i e) j = queued e j := by
  cases j with
  | none => rfl
  | some j =>
    by_cases hj : i = j
    · subst hj
      have hi : i < e.itemState.length := by
        by_contra hlt
        have hnone : e.itemState[i]? = none := List.getElem?_eq_none (by omega)
        simp [queued, hnone] at hq
      rw [hq]
      simp [queued, itemDone, hi]
    · simp [queued, itemDone, hj]

theorem EdgeInv.itemDone {c : Option ℕ → ℕ} {e : EdgeState} {items : List Item}
    (h : S.EdgeInv c u e items) (hi : i < e.itemState.length) (hnew : e.itemState[i]? ≠ some 2)
    (p : Path) {c' : Option ℕ → ℕ} (hself : 0 < c' (some i))
    (hne : ∀ j, j ≠ some i → c' j = c j) :
    S.EdgeInv c' u (itemDone i e) (items.modify i fun it => { it with filePath := p }) := by
  have hslots := h.slots (List.ne_nil_of_length_pos (by omega))
  have hnofan : S.graph.fan u ≠ false := by simp [hslots.1]
  have hget : (e.itemState[i] == 2) = false := by
    rw [List.getElem?_eq_getElem hi] at hnew
    simpa using hnew
  have hcount : (e.itemState.set i 2).count 2 = e.itemState.count 2 + 1 := by
    rw [List.count_set hi, hget]
    rfl
  have hlt : e.itemState.count 2 < e.itemState.length := by
    have hle := List.count_le_length (a := 2) (l := e.itemState.set i 2)
    rw [hcount, List.length_set] at hle
    omega
  have hfin : e.finished = false := by
    by_contra hfin
    have := (h.fanFinished hslots.1 hslots.2.2 hslots.2.1).1 (Bool.eq_true_of_not_eq_false hfin)
    rw [h.itemsDone] at this
    omega
  exact
    { mem := h.mem
      kind := h.kind
      slots := fun _ => hslots
      done := fun j => by
        show (e.itemState.set i 2)[j]? = some 2 ↔ _
        by_cases hj : i = j
        · subst hj
          rw [List.getElem?_set_self hi]
          exact iff_of_true rfl hself
        · rw [List.getElem?_set_ne hj, hne _ fun heq => hj (Option.some.inj heq).symm]
          exact h.done j
      itemsDone := by
        show e.itemsDone + 1 = (e.itemState.set i 2).count 2
        rw [hcount, h.itemsDone]
      whole := fun hf => absurd hf hnofan
      openedWhole := fun hf => absurd hf hnofan
      fanFinished := fun _ _ _ => by
        show (e.finished || decide (e.itemsDone + 1 = e.itemState.length)) = true ↔
          e.itemsDone + 1 = (e.itemState.set i 2).length
        rw [hfin, Bool.false_or, decide_eq_true_iff, List.length_set]
      finished_opened := fun _ => hslots.2.1
      length := fun hf hs ho => by
        rw [List.length_modify]
        exact (List.length_set).trans (h.length hf hs ho)
      lookup := fun hf hs ho key j => by
        rw [← List.getElem?_map, map_key_modify, List.getElem?_map]
        exact h.lookup hf hs ho key j
      keysNodup := fun ho => by
        rw [map_key_modify]
        exact h.keysNodup ho }

/-- **A task that succeeds** keeps the invariant. -/
theorem Inv.succeed (h : S.Inv s (t :: act)) (w : ℕ) {o : Outcome} (ho : o.Fits t) :
    S.Inv (S.fold t o (S.release w t s)) act ∧ Grows s (S.fold t o (S.release w t s)) ∧
      ∃ e l, S.Succeeds t e l s (S.fold t o (S.release w t s)) := by
  obtain ⟨u, i⟩ := t
  have he := h.edge u
  have hq := h.queued_of_active
  have hzero := h.not_completed_of_active.1
  cases o with
  | failure => exact ho.elim
  | items l =>
    obtain ⟨rfl, hl⟩ := ho
    obtain ⟨hf, hs⟩ := he.kind hq
    have hnofan : S.graph.fan u ≠ true := by simp [hf]
    have hfin : (s.st u).finished = false := by
      by_contra hfin
      have := (he.whole hf hs).1 (Bool.eq_true_of_not_eq_false hfin)
      omega
    have hopened : (s.st u).opened ≠ true := by simp [he.openedWhole hf, hfin]
    have hsucceeds := fold_whole S w u l s hfin
    obtain ⟨hinv, hgrows⟩ := h.of_succeeds hsucceeds (queued_wholeDone _) rfl (fun _ => rfl)
      (fun hf' => absurd hf' hnofan) (fun _ => rfl) (fun ho => absurd ho hopened)
      (he.wholeDone hq hl (List.count_pos_iff.2 (List.mem_append_right _ List.mem_cons_self))
        fun i => by simp [List.count_append])
    exact ⟨hinv, hgrows, _, _, hsucceeds⟩
  | path p =>
    obtain ⟨i, rfl⟩ := Option.ne_none_iff_exists'.1 ho
    obtain ⟨hf, hs, hopened, hi, hnew⟩ := h.item_of_active
    have hdone := @EdgeInv.itemDone S u i _ _ _ he hi hnew p
      (fun j => (s.completed ++ [(u, some i)]).count (u, j))
      (List.count_pos_iff.2 (List.mem_append_right _ List.mem_cons_self)) fun j hj => by
        show (s.completed ++ [(u, some i)]).count (u, j) = _
        rw [List.count_append, List.count_singleton, if_neg (by simpa using hj.symm), Nat.add_zero]
    have hfin : (s.st u).finished = false := by
      by_contra hfin
      have hcount := (he.fanFinished hf hs hopened).1 (Bool.eq_true_of_not_eq_false hfin)
      rw [he.itemsDone] at hcount
      exact hnew (getElem?_of_count hcount hi)
    have hsucceeds := fold_item S w u i p s hfin
    obtain ⟨hinv, hgrows⟩ := h.of_succeeds hsucceeds (queued_itemDone _ hq) rfl (fun ho => ho)
      (fun _ ho => ho) (fun hfin' => absurd (hfin.symm.trans hfin') (by simp))
      (fun _ => map_key_modify _ _ _) hdone
    exact ⟨hinv, hgrows, _, _, hsucceeds⟩

theorem Succeeds.workers {o : Outcome} (ho : o.Fits t) :
    (S.fold t o (S.release w t s)).workers = s.workers.set w .ready := by
  obtain ⟨u, i⟩ := t
  cases o with
  | failure => exact ho.elim
  | items l =>
    obtain ⟨rfl, -⟩ := ho
    obtain ⟨seen, dup, failed, heq, -⟩ := noteFinished_eq S u
      { (S.release w (u, none) s).update u fun e => { e with opened := true, finished := true }
        with
        items := Function.update s.items u l, completed := s.completed ++ [(u, none)] }
    show (S.noteFinished u _).workers = _
    exact congrArg State.workers heq
  | path p =>
    obtain ⟨i, rfl⟩ := Option.ne_none_iff_exists'.1 ho
    obtain ⟨seen, dup, failed, heq, -⟩ := noteFinished_eq S u
      ((S.produce w u i p s).update u fun e => { e with finished := true })
    rw [fold_item_eq]
    split_ifs
    · rw [heq]
      rfl
    · rfl

end Scheduler

end MlirAie.Engine
