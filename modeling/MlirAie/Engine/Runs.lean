import MlirAie.Engine.Pool

/-!
# Runs of the engine

* `Run.safe`: every state of every run is safe;
* **`Run.safe_and_complete`**: no task runs twice or too early, exclusive tasks run alone, no worker
  finds a stall, and a run that ends without a report ran every task once;
* **`Run.awake`**: the pool is never left with waiting workers only.
-/

namespace MlirAie.Engine

open MlirAie.Lib

namespace Scheduler

variable {S : Scheduler} {s s' : State} {act : List Task} {u v w i n : ℕ} {t : Task} {x : Worker}

/-! ## The preload -/

/-- What holds before anything is restored. -/
theorem inv_empty (S : Scheduler) : S.Inv {} [] where
  edge u :=
    { mem := fun h => by rcases h with h | h <;> cases h
      kind := fun h => by cases h
      slots := fun h => absurd rfl h
      done := fun i => by simp
      itemsDone := rfl
      whole := fun _ _ => by simp
      openedWhole := fun _ => rfl
      fanFinished := fun _ _ h => by cases h
      finished_opened := fun h => by cases h
      length := fun _ _ h => by cases h
      lookup := fun _ _ h => by cases h
      keysNodup := fun h => by cases h }
  place t := by
    cases ht : t.2 with
    | none => rfl
    | some i => rfl
  started t := rfl
  met t ht := by
    cases h2 : t.2 with
    | none =>
      rw [h2] at ht
      cases ht
    | some i =>
      rw [h2] at ht
      cases ht
  copied u _ _ h := by cases h
  counted := by simp
  inFlight := rfl
  running u := rfl
  busy := rfl
  failed_of_failure h := absurd rfl h
  cause h := by cases h

def restore (S : Scheduler) (u : ℕ) (l : List Item) (s : State) : State :=
  S.noteFinished u
    { s.update u fun e => { e with opened := true, finished := true } with
      items := Function.update s.items u l }

/-- **Restoring a node** that is marked for it. -/
theorem Inv.restore (h : S.Inv s []) (hu : u ∈ S.edges) (hs : S.satisfied u = true)
    (hst : s.st u = {}) {l : List Item} (hl : (l.map Item.key).Nodup) :
    S.Inv (S.restore u l s) [] ∧ Grows s (S.restore u l s) ∧
      ((S.restore u l s).st u).finished = true ∧
      ∀ v ≠ u, (S.restore u l s).st v = s.st v := by
  obtain ⟨seen, dup, failed, heq, hmono, hcause, hdup⟩ := noteFinished_eq S u
    { s.update u fun e => { e with opened := true, finished := true } with
      items := Function.update s.items u l }
  have he := h.edge u
  have hself : (S.restore u l s).st u = { opened := true, finished := true } := by
    rw [Scheduler.restore, heq]
    show Function.update s.st u _ u = _
    rw [Function.update_self, hst]
  have hne (v : ℕ) (hv : v ≠ u) : (S.restore u l s).st v = s.st v := by
    rw [Scheduler.restore, heq]
    exact Function.update_of_ne hv _ _
  have hitems : (S.restore u l s).items u = l := by
    rw [Scheduler.restore, heq]
    exact Function.update_self _ _ _
  have hitemsNe (v : ℕ) (hv : v ≠ u) : (S.restore u l s).items v = s.items v := by
    rw [Scheduler.restore, heq]
    exact Function.update_of_ne hv _ _
  have hcompleted : (S.restore u l s).completed = s.completed := by
    rw [Scheduler.restore, heq]
    rfl
  have hqueued (t : Task) : queued ((S.restore u l s).st t.1) t.2 = queued (s.st t.1) t.2 := by
    by_cases hv : t.1 = u
    · rw [hv, hself, hst]
      cases t.2 with
      | none => rfl
      | some i => rfl
    · rw [hne _ hv]
  have hgrows : Grows s (S.restore u l s) := by
    refine ⟨fun t ht => ?_, fun v hv => ?_, fun v hv => ?_, fun v hv => ?_⟩
    · rwa [hcompleted]
    · have hvu : v ≠ u := fun heq => by
        rw [heq, hst] at hv
        cases hv
      rwa [hne v hvu]
    · have hvu : v ≠ u := fun heq => by
        rw [heq, hst] at hv
        cases hv
      rwa [hne v hvu]
    · have hvu : v ≠ u := fun heq => by
        rw [heq, hst] at hv
        cases hv
      rw [hitemsNe v hvu]
  refine ⟨⟨fun v => ?_, fun t => ?_, fun t => ?_, fun t ht => ?_, fun v hf hs' ho => ?_, ?_, ?_,
    fun v => ?_, ?_, fun hf => ?_, fun hf => ?_⟩, hgrows, by rw [hself], hne⟩
  · by_cases hv : v = u
    · subst hv
      rw [hself, hitems, hcompleted]
      exact
        { mem := fun _ => hu
          kind := fun h => by cases h
          slots := fun h => absurd rfl h
          done := fun i => by
            rw [← he.done i, hst]
          itemsDone := rfl
          whole := fun _ hs' => absurd (hs.symm.trans hs') (by simp)
          openedWhole := fun _ => rfl
          fanFinished := fun _ hs' => absurd (hs.symm.trans hs') (by simp)
          finished_opened := fun _ => rfl
          length := fun _ hs' => absurd (hs.symm.trans hs') (by simp)
          lookup := fun _ hs' => absurd (hs.symm.trans hs') (by simp)
          keysNodup := fun _ => hl }
    · exact h.edge_of_ne (hne v hv) (hitemsNe v hv) fun _ => by rw [hcompleted]
  · rw [hqueued, Scheduler.restore, heq]
    exact h.place t
  · rw [Scheduler.restore, heq]
    exact h.started t
  · rw [hqueued] at ht
    exact h.met_of_grows hgrows ht
  · have hvu : v ≠ u := fun heq => by
      rw [heq, hs] at hs'
      cases hs'
    rw [hne v hvu] at ho
    exact h.copied_of_grows hgrows hf hs' ho
  · have hcount : (S.restore u l s).finishedEdges = s.finishedEdges + 1 := by
      rw [Scheduler.restore, heq]
      rfl
    rw [hcount, h.counted]
    exact (countP_finish hu (by rw [hst]) (by rw [hself]) fun v hv => by rw [hne v hv]).symm
  · rw [Scheduler.restore, heq]
    exact h.inFlight
  · refine Eq.trans ?_ (h.running v)
    by_cases hv : v = u
    · rw [hv, hself, hst]
    · rw [hne v hv]
  · rw [Scheduler.restore, heq]
    exact h.busy
  · rw [Scheduler.restore, heq] at hf ⊢
    exact hmono (h.failed_of_failure hf)
  · rw [Scheduler.restore, heq] at hf ⊢
    rcases hcause hf with hf | hf
    · rcases h.cause hf with hf | hf
      · exact Or.inl hf
      · exact Or.inr (hdup hf)
    · exact Or.inr hf

/-- The preload restores the edges that are marked, and has not failed. -/
theorem Inv.preload {restored : ℕ → Option (List Item)}
    (hkeys : ∀ u l, restored u = some l → (l.map Item.key).Nodup) {us : List ℕ} (hus : us.Nodup)
    (hsub : ∀ u ∈ us, u ∈ S.edges) (hst : ∀ u ∈ us, s.st u = {}) (h : S.Inv s [])
    (hfailed : s.failed = false) (hpre : S.preload restored us s = some s') :
    S.Inv s' [] ∧ s'.failed = false ∧ s'.stalled = s.stalled ∧ Grows s s' ∧
      ∀ u ∈ us, S.satisfied u = true → (s'.st u).finished = true := by
  induction us generalizing s with
  | nil =>
    obtain rfl := Option.some.inj hpre
    exact ⟨h, hfailed, rfl, Grows.refl s, List.forall_mem_nil _⟩
  | cons u us ih =>
    rw [Scheduler.preload] at hpre
    obtain ⟨hu, hus⟩ := List.nodup_cons.1 hus
    obtain ⟨hmem, hsub⟩ := List.forall_mem_cons.1 hsub
    obtain ⟨hstu, hst⟩ := List.forall_mem_cons.1 hst
    by_cases hs : S.satisfied u = true
    · rw [if_pos hs] at hpre
      cases hl : restored u with
      | none =>
        rw [hl] at hpre
        cases hpre
      | some l =>
        rw [hl] at hpre
        obtain ⟨hinv, hgrows, hfin, hne⟩ := h.restore hmem hs hstu (hkeys u l hl)
        replace hpre : (if (S.restore u l s).failed = true then none
          else S.preload restored us (S.restore u l s)) = some s' := hpre
        by_cases hf : (S.restore u l s).failed = true
        · rw [if_pos hf] at hpre
          cases hpre
        · rw [if_neg hf] at hpre
          obtain ⟨hinv', hfailed', hstalled, hgrows', hall⟩ := ih hus hsub (fun v hv => by
            rw [hne v fun heq => hu (heq ▸ hv)]
            exact hst v hv) hinv (Bool.eq_false_of_not_eq_true hf) hpre
          refine ⟨hinv', hfailed', hstalled.trans ?_, hgrows.trans hgrows', List.forall_mem_cons.2
            ⟨fun _ => hgrows'.finished u hfin, hall⟩⟩
          obtain ⟨seen, dup, failed, heq, -⟩ := noteFinished_eq S u
            { s.update u fun e => { e with opened := true, finished := true } with
              items := Function.update s.items u l }
          rw [Scheduler.restore, heq]
          rfl
    · rw [if_neg hs] at hpre
      obtain ⟨hinv', hfailed', hstalled, hgrows', hall⟩ := ih hus hsub hst h hfailed hpre
      exact ⟨hinv', hfailed', hstalled, hgrows',
        List.forall_mem_cons.2 ⟨fun hs' => absurd hs' hs, hall⟩⟩

/-! ## Runs -/

/-- **Every state of every run is safe.** -/
theorem Run.safe (hn : 0 < n) (h : S.Run n s) : S.Safe s := by
  induction h with
  | @start restored s s' hkeys hpre hs hok =>
    obtain ⟨hinv, -, hstalled, -, hall⟩ := (inv_empty S).preload hkeys Graph.nodup_reachable
      (fun _ hu => hu) (fun _ _ => rfl) rfl hpre
    obtain ⟨hscanned, hquiet⟩ := Safe.rescans hinv hall hs
    have hrestored : S.AllRestored s' := AllRestored.mono hall hscanned.grows
    have hactive : (State.active { s' with workers := List.replicate n .ready }) = [] := by
      refine List.filterMap_eq_nil_iff.2 fun x hx => ?_
      rw [List.eq_of_mem_replicate hx]
      rfl
    have hstalled : s'.stalled = false := by
      rw [hscanned.frame]
      exact hstalled
    refine ⟨?_, hrestored, fun _ => hquiet hok, hstalled, fun hret => ?_, fun hwait => ?_, ?_⟩
    · rw [hactive]
      exact hscanned.inv.of_workers (List.Perm.refl _) _ _ _
    · cases List.eq_of_mem_replicate hret
    · cases List.eq_of_mem_replicate hwait
    · exact mt (List.replicate_eq_nil_iff _).1 hn.ne'
  | step _ hstep ih => exact ih.step hstep

/-- The tasks of a run: the items of fan-out edges, and each other edge as a whole. Restored edges
have none. -/
def IsTask (S : Scheduler) (s : State) (t : Task) : Prop :=
  t.1 ∈ S.edges ∧ S.satisfied t.1 = false ∧
    ((t.2 = none ∧ S.graph.fan t.1 = false) ∨
      ∃ i, t.2 = some i ∧ S.graph.fan t.1 = true ∧ i < (s.items t.1).length)

/-- At the position of item `i`, the first input has the item of its key, and it is produced. -/
def ReadsPosition (S : Scheduler) (s : State) (u i : ℕ) : Prop :=
  ∀ v, (S.graph.inputs u).head? = some v → ∃ it, (s.items v)[i]? = some it ∧
    it.key = itemKey s u i ∧
      (S.graph.fan v = true → S.satisfied v = true ∨ (v, some i) ∈ s.completed)

theorem Inv.queued_of_started (h : S.Inv s act) (ht : t ∈ s.started) :
    queued (s.st t.1) t.2 = true := by
  have hpos := List.count_pos_iff.2 ht
  rw [h.started] at hpos
  have hplace := h.place t
  by_contra hq
  rw [if_neg hq] at hplace
  omega

theorem Inv.nodup_started (h : S.Inv s act) : s.started.Nodup := by
  refine List.nodup_iff_count_le_one.2 fun t => ?_
  have hplace := h.place t
  rw [h.started]
  split_ifs at hplace <;> omega

theorem Inv.readsPosition (h : S.Inv s act) (ht : queued (s.st u) (some i) = true) :
    S.ReadsPosition s u i := by
  intro v hv
  have he := h.edge u
  have hi : i < (s.st u).itemState.length := by
    by_contra hlt
    have hnone : (s.st u).itemState[i]? = none := List.getElem?_eq_none (by omega)
    simp [queued, hnone] at ht
  obtain ⟨hf, ho, hs⟩ := he.slots (List.ne_nil_of_length_pos (by omega))
  rw [he.length hf hs ho] at hi
  obtain ⟨v', hv', hov, hkeys⟩ := h.copied u hf hs ho
  obtain rfl := Option.some.inj (hv.symm.trans hv')
  have hget := congrArg (·[i]?) hkeys
  simp only [List.getElem?_map, List.getElem?_eq_getElem hi, Option.map_some] at hget
  obtain ⟨it, hit, hkey⟩ := Option.map_eq_some_iff.1 hget.symm
  have hkey' : it.key = itemKey s u i := by
    rw [itemKey, List.getElem?_eq_getElem hi, hkey]
    rfl
  refine ⟨it, hit, hkey', fun hfv => ?_⟩
  have hmet := h.met (u, some i) ht v (List.mem_of_head? hv)
  rcases hmet with hsat | ⟨hfv', -⟩ | ⟨-, -, hall⟩
  · exact Or.inl hsat
  · exact absurd (hfv.symm.trans hfv') (by simp)
  · exact Or.inr (hall i it hit fun k hk => hkey'.trans (Option.some.inj hk))

theorem Inv.completed_of_finished (h : S.Inv s act) (hall : ∀ u ∈ S.edges, (s.st u).finished = true)
    (ht : S.IsTask s t) : s.completed.count t = 1 ∧ s.started.count t = 1 := by
  obtain ⟨u, j⟩ := t
  obtain ⟨hu, hs, hkind⟩ := ht
  have he := h.edge u
  have hfin := hall u hu
  have hpos : 0 < s.completed.count (u, j) := by
    rcases hkind with ⟨rfl, hf⟩ | ⟨i, rfl, hf, hi⟩
    · exact (he.whole hf hs).1 hfin
    · have ho := he.finished_opened hfin
      have hcount := (he.fanFinished hf hs ho).1 hfin
      rw [he.itemsDone] at hcount
      exact (he.done i).1 (getElem?_of_count hcount ((he.length hf hs ho).symm ▸ hi))
  have hplace := h.place (u, j)
  have hstarted := h.started (u, j)
  split_ifs at hplace <;> omega

/-- **The scheduler is safe and complete.** In every state that a run of `n` workers reaches: no
task was started twice; a task is started when what it reads is produced; at most one task of an
edge that is not thread-safe is running; no worker stalled; and where all workers have returned, a
failed task or a duplicate path was reported, or every task ran once. -/
theorem Run.safe_and_complete (hn : 0 < n) (h : S.Run n s) :
    s.started.Nodup ∧
      (∀ s', S.Step s s' → ∀ t ∈ s'.started, t ∉ s.started →
        S.Met s' t ∧ ∀ i, t.2 = some i → S.ReadsPosition s' t.1 i) ∧
      s.active.countP S.exclusive ≤ 1 ∧ s.stalled = false ∧
      ((∀ x ∈ s.workers, x = .returned) → s.failures ≠ [] ∨ s.duplicates ≠ [] ∨
        ∀ t, S.IsTask s t → s.completed.count t = 1 ∧ s.started.count t = 1) := by
  have hsafe := h.safe hn
  refine ⟨hsafe.inv.nodup_started, fun s' hstep t ht _ => ?_, ?_, hsafe.stalled, fun hall => ?_⟩
  · have hsafe' := hsafe.step hstep
    have hq := hsafe'.inv.queued_of_started ht
    refine ⟨hsafe'.inv.met t hq, fun i hi => hsafe'.inv.readsPosition ?_⟩
    rwa [hi] at hq
  · rw [hsafe.inv.busy]
    split_ifs <;> omega
  · obtain ⟨x, hx⟩ := List.exists_mem_of_ne_nil _ hsafe.workers
    have hret : Worker.returned ∈ s.workers := by rwa [← hall x hx]
    by_cases hfailed : s.failed = true
    · rcases hsafe.inv.cause hfailed with hf | hf
      · exact Or.inl hf
      · exact Or.inr (Or.inl hf)
    · have hdone := (hsafe.returned hret).resolve_left hfailed
      exact Or.inr (Or.inr fun t ht => hsafe.inv.completed_of_finished
        (fun u hu => finished_of_numEdges hsafe.inv hdone hu) ht)

def splitThenMap : Scheduler where
  graph :=
    { edges := [⟨.structural, true, false, []⟩, ⟨.map, false, true, [0]⟩]
      acyclic := by
        intro u e he v hv
        match u, he with
        | 0, he =>
          obtain rfl := Option.some.inj he
          cases hv
        | 1, he =>
          obtain rfl := Option.some.inj he
          obtain rfl := List.mem_singleton.1 hv
          exact Nat.one_pos
      fanOut_inputs := by decide }
  satisfied _ := false
  roots := [1]
  outputPath _ key := key

def rescanned (s : State) : State := ((splitThenMap.rescan 5 s).getD s)

theorem rescans_rescanned (hfailed : s.failed = false)
    (h : (splitThenMap.rescan 5 s).isSome = true) :
    splitThenMap.Rescans s (rescanned s) := by
  unfold Rescans
  rw [hfailed, if_neg Bool.false_ne_true]
  obtain ⟨s', hs'⟩ := Option.isSome_iff_exists.1 h
  exact ⟨5, by rw [rescanned, hs']; rfl⟩

/-- Two workers are created, the split edge queued. -/
def runStart : State := { rescanned {} with workers := [.ready, .ready] }

/-- The first worker has run the split edge, which gave two items, and is in the first of them. -/
def runSplit : State :=
  splitThenMap.finish 0 (rescanned (splitThenMap.fold (0, none) (.items [⟨"a", ""⟩, ⟨"b", ""⟩])
    (splitThenMap.release 0 (0, none) (splitThenMap.head 0 runStart))))

/-- The second worker waits for the item; then the first one goes on to the other item. -/
def runFirst : State :=
  splitThenMap.finish 0 (rescanned (splitThenMap.fold (1, some 0) (.path "a.o")
    (splitThenMap.release 0 (1, some 0) (splitThenMap.head 1 runSplit))))

def runEnd : State :=
  splitThenMap.head 1 (splitThenMap.finish 0 (rescanned (splitThenMap.fold (1, some 1)
    (.path "b.o") (splitThenMap.release 0 (1, some 1) runFirst))))

theorem run_runEnd : splitThenMap.Run 2 runEnd := by
  have hstart : splitThenMap.Run 2 runStart :=
    @Run.start _ _ (fun _ => none) {} (rescanned {}) (fun _ _ h => by cases h) rfl
      (rescans_rescanned rfl (by decide +kernel)) (by decide +kernel)
  have hlook := hstart.step (Step.look (w := 0) (Or.inl rfl))
  have hsplit : splitThenMap.Run 2 runSplit := hlook.step
    (Step.success (t := (0, none)) (o := .items _) (by decide +kernel) ⟨rfl, by decide⟩
      (rescans_rescanned (by decide +kernel) (by decide +kernel)))
  have hwait := hsplit.step (Step.look (w := 1) (Or.inl (by decide +kernel)))
  have hfirst : splitThenMap.Run 2 runFirst := hwait.step
    (Step.success (t := (1, some 0)) (o := .path _) (by decide +kernel)
      (Option.some_ne_none 0) (rescans_rescanned (by decide +kernel) (by decide +kernel)))
  have hlast := hfirst.step
    (Step.success (w := 0) (t := (1, some 1)) (o := .path "b.o") (by decide +kernel)
      (Option.some_ne_none 1) (rescans_rescanned (by decide +kernel) (by decide +kernel)))
  exact hlast.step (Step.look (w := 1) (Or.inl (by decide +kernel)))

/-- The run ends with each of its three tasks completed once. -/
theorem splitThenMap_complete : (∀ x ∈ runEnd.workers, x = .returned) ∧ runEnd.failures = [] ∧
    runEnd.duplicates = [] ∧
    ∀ t, splitThenMap.IsTask runEnd t → runEnd.completed.count t = 1 ∧
      runEnd.started.count t = 1 := by
  have hret : ∀ x ∈ runEnd.workers, x = .returned := by decide +kernel
  have hfailures : runEnd.failures = [] := by decide +kernel
  have hduplicates : runEnd.duplicates = [] := by decide +kernel
  have hdone := (Run.safe_and_complete (by decide) run_runEnd).2.2.2.2 hret
  exact ⟨hret, hfailures, hduplicates,
    (hdone.resolve_left fun h => h hfailures).resolve_left fun h => h hduplicates⟩

/-- **A pool with a waiting worker has a worker in a task**, whose end wakes the others up. -/
theorem Run.awake (hn : 0 < n) (h : S.Run n s) (hw : .waiting ∈ s.workers) :
    ∃ t, .running t ∈ s.workers := by
  obtain ⟨t, ht⟩ := List.exists_mem_of_ne_nil _ ((h.safe hn).waiting hw)
  obtain ⟨x, hx, htask⟩ := List.mem_filterMap.1 ht
  cases x with
  | running t' => exact ⟨t', hx⟩
  | ready => cases htask
  | waiting => cases htask
  | returned => cases htask

theorem secondWaits_awake :
    ∃ t, .running t ∈ (splitThenMap.head 1 (splitThenMap.head 0 runStart)).workers := by
  have hstart : splitThenMap.Run 2 runStart :=
    @Run.start _ _ (fun _ => none) {} (rescanned {}) (fun _ _ h => by cases h) rfl
      (rescans_rescanned rfl (by decide +kernel)) (by decide +kernel)
  have hwait := (hstart.step (Step.look (w := 0) (Or.inl rfl))).step
    (Step.look (w := 1) (Or.inl (by decide +kernel)))
  exact Run.awake (by decide) hwait (by decide +kernel)

end Scheduler

end MlirAie.Engine
