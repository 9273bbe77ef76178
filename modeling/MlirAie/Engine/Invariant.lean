import MlirAie.Engine.Scheduler

/-!
# What the scheduler keeps

Every task that was queued is at one place: in the ready list, with a worker, completed or failed.

* `Met`: the items that a task reads have been produced;
* `Inv`: the invariant, with the tasks that workers hold as a parameter;
* `Grows`, `Met.mono`: what was produced stays so.
-/

namespace MlirAie.Engine

open MlirAie.Lib

namespace State

variable (s : State) (u : ℕ) (f : EdgeState → EdgeState)

@[simp] theorem update_st_self : (s.update u f).st u = f (s.st u) := Function.update_self _ _ _

theorem update_st_of_ne {v : ℕ} (h : v ≠ u) : (s.update u f).st v = s.st v :=
  Function.update_of_ne h _ _

@[simp] theorem update_items : (s.update u f).items = s.items := rfl

end State

def queued (e : EdgeState) : Option ℕ → Bool
  | none => e.wholeQueued
  | some i => (e.itemState[i]?).getD 0 ≠ 0

namespace Scheduler

/-- The flags of an edge, where `c` counts its completed tasks and `items` are its node's. -/
structure EdgeInv (S : Scheduler) (c : Option ℕ → ℕ) (u : ℕ) (e : EdgeState)
    (items : List Item) : Prop where
  mem : e.opened = true ∨ e.wholeQueued = true → u ∈ S.edges
  kind : e.wholeQueued = true → S.graph.fan u = false ∧ S.satisfied u = false
  slots : e.itemState ≠ [] →
    S.graph.fan u = true ∧ e.opened = true ∧ S.satisfied u = false
  done : ∀ i, e.itemState[i]? = some 2 ↔ 0 < c (some i)
  itemsDone : e.itemsDone = e.itemState.count 2
  whole : S.graph.fan u = false → S.satisfied u = false → (e.finished = true ↔ 0 < c none)
  openedWhole : S.graph.fan u = false → e.opened = e.finished
  fanFinished : S.graph.fan u = true → S.satisfied u = false → e.opened = true →
    (e.finished = true ↔ e.itemsDone = e.itemState.length)
  finished_opened : e.finished = true → e.opened = true
  length : S.graph.fan u = true → S.satisfied u = false → e.opened = true →
    e.itemState.length = items.length
  lookup : S.graph.fan u = true → S.satisfied u = false → e.opened = true →
    ∀ key i, e.keyIndex.lookup key = some i ↔ (items[i]?).map Item.key = some key
  keysNodup : e.opened = true → (items.map Item.key).Nodup

/-- What a task reads of node `v` is produced: the items of its key where the producer fans out,
and all items otherwise. -/
def InputReady (S : Scheduler) (s : State) (v : ℕ) (key : Option Key) : Prop :=
  S.satisfied v = true ∨ (S.graph.fan v = false ∧ (v, none) ∈ s.completed) ∨
    (S.graph.fan v = true ∧ (s.st v).opened = true ∧
      ∀ i it, (s.items v)[i]? = some it → (∀ k, key = some k → it.key = k) →
        (v, some i) ∈ s.completed)

/-- Every item that the task reads has been produced. -/
def Met (S : Scheduler) (s : State) (t : Task) : Prop :=
  ∀ v ∈ S.graph.inputs t.1, S.InputReady s v (t.2.map (itemKey s t.1))

/-- The tasks of edges that are not thread-safe. -/
def exclusive (S : Scheduler) (t : Task) : Bool := !S.graph.threadSafe t.1

structure Inv (S : Scheduler) (s : State) (act : List Task) : Prop where
  edge : ∀ u, S.EdgeInv (fun i => s.completed.count (u, i)) u (s.st u) (s.items u)
  place : ∀ t : Task, s.ready.count t + act.count t + s.completed.count t + s.failures.count t =
    if queued (s.st t.1) t.2 then 1 else 0
  started : ∀ t, s.started.count t = act.count t + s.completed.count t + s.failures.count t
  met : ∀ t : Task, queued (s.st t.1) t.2 = true → S.Met s t
  copied : ∀ u, S.graph.fan u = true → S.satisfied u = false → (s.st u).opened = true →
    ∃ v, (S.graph.inputs u).head? = some v ∧ (s.st v).opened = true ∧
      (s.items u).map Item.key = (s.items v).map Item.key
  counted : s.finishedEdges = S.edges.countP fun u => (s.st u).finished
  inFlight : s.inFlight = act.length
  running : ∀ u, (s.st u).running = act.countP fun t => t.1 = u
  busy : act.countP S.exclusive = if s.exclusiveBusy then 1 else 0
  failed_of_failure : s.failures ≠ [] → s.failed = true
  cause : s.failed = true → s.failures ≠ [] ∨ s.duplicates ≠ []

/-- Every edge to restore has been restored. -/
def AllRestored (S : Scheduler) (s : State) : Prop :=
  ∀ u ∈ S.edges, S.satisfied u = true → (s.st u).finished = true

/-- From `s` to `s'`, completed tasks, finished edges and the keys of opened nodes stay. -/
structure Grows (s s' : State) : Prop where
  completed : ∀ t ∈ s.completed, t ∈ s'.completed
  opened : ∀ v, (s.st v).opened = true → (s'.st v).opened = true
  finished : ∀ v, (s.st v).finished = true → (s'.st v).finished = true
  keys : ∀ v, (s.st v).opened = true → (s'.items v).map Item.key = (s.items v).map Item.key

variable {S : Scheduler} {s s' s'' : State} {act act' : List Task} {u v i : ℕ} {t : Task}

theorem Grows.refl (s : State) : Grows s s := ⟨fun _ h => h, fun _ h => h, fun _ h => h,
  fun _ _ => rfl⟩

theorem Grows.trans (h : Grows s s') (h' : Grows s' s'') : Grows s s'' where
  completed t ht := h'.completed t (h.completed t ht)
  opened v hv := h'.opened v (h.opened v hv)
  finished v hv := h'.finished v (h.finished v hv)
  keys v hv := (h'.keys v (h.opened v hv)).trans (h.keys v hv)

theorem AllRestored.mono (h : S.AllRestored s) (hg : Grows s s') : S.AllRestored s' :=
  fun u hu hs => hg.finished u (h u hu hs)

theorem itemKey_eq (h : (s'.items u).map Item.key = (s.items u).map Item.key) (i : ℕ) :
    itemKey s' u i = itemKey s u i := by
  unfold itemKey
  rw [← List.getElem?_map, ← List.getElem?_map, h]

theorem InputReady.mono {key : Option Key} (h : S.InputReady s v key) (hg : Grows s s') :
    S.InputReady s' v key := by
  rcases h with h | ⟨hf, h⟩ | ⟨hf, ho, h⟩
  · exact Or.inl h
  · exact Or.inr (Or.inl ⟨hf, hg.completed _ h⟩)
  · refine Or.inr (Or.inr ⟨hf, hg.opened v ho, fun i it hi hk => hg.completed _ ?_⟩)
    have hkey := congrArg (·[i]?) (hg.keys v ho)
    simp only [List.getElem?_map, hi, Option.map_some] at hkey
    obtain ⟨it', hi', hk'⟩ := Option.map_eq_some_iff.1 hkey.symm
    exact h i it' hi' fun k hk₁ => hk'.trans (hk k hk₁)

/-- **What was produced stays produced.** -/
theorem Met.mono (h : S.Met s t) (hg : Grows s s') (ho : t.2 ≠ none → (s.st t.1).opened = true) :
    S.Met s' t := by
  intro v hv
  have hready := (h v hv).mono hg
  cases ht : t.2 with
  | none =>
    rw [ht] at hready
    exact hready
  | some i =>
    rw [ht] at hready
    rw [Option.map_some] at hready ⊢
    rwa [itemKey_eq (hg.keys t.1 (ho (by rw [ht]; exact Option.some_ne_none i)))]

theorem EdgeInv.opened_of_queued {c : Option ℕ → ℕ} {e : EdgeState} {items : List Item}
    (h : S.EdgeInv c u e items) {i : Option ℕ} (hq : queued e i = true) (hi : i ≠ none) :
    e.opened = true := by
  cases i with
  | none => exact absurd rfl hi
  | some i =>
    refine (h.slots fun hnil => ?_).2.1
    rw [queued, hnil] at hq
    simp at hq

theorem EdgeInv.mem_of_queued {c : Option ℕ → ℕ} {e : EdgeState} {items : List Item}
    (h : S.EdgeInv c u e items) {i : Option ℕ} (hq : queued e i = true) : u ∈ S.edges := by
  cases i with
  | none => exact h.mem (Or.inr hq)
  | some i => exact h.mem (Or.inl (h.opened_of_queued hq (Option.some_ne_none i)))

namespace Inv

theorem met_of_grows (h : S.Inv s act) (hg : Grows s s')
    (hq : queued (s.st t.1) t.2 = true) : S.Met s' t :=
  (h.met t hq).mono hg fun hi => (h.edge t.1).opened_of_queued hq hi

theorem copied_of_grows (h : S.Inv s act) (hg : Grows s s') (hf : S.graph.fan u = true)
    (hs : S.satisfied u = false) (ho : (s.st u).opened = true) :
    ∃ v, (S.graph.inputs u).head? = some v ∧ (s'.st v).opened = true ∧
      (s'.items u).map Item.key = (s'.items v).map Item.key := by
  obtain ⟨v, hv, hov, hkeys⟩ := h.copied u hf hs ho
  exact ⟨v, hv, hg.opened v hov, by rw [hg.keys u ho, hg.keys v hov, hkeys]⟩

theorem edge_of_ne (h : S.Inv s act) (hst : s'.st v = s.st v) (hitems : s'.items v = s.items v)
    (hc : ∀ i, s'.completed.count (v, i) = s.completed.count (v, i)) :
    S.EdgeInv (fun i => s'.completed.count (v, i)) v (s'.st v) (s'.items v) := by
  rw [hst, hitems, funext hc]
  exact h.edge v

/-- Nothing of the invariant is in the workers, the paths seen, or the order of held tasks. -/
theorem of_workers (h : S.Inv s act) (hact : act.Perm act') (workers : List Worker)
    (paths : List Path) (b : Bool) :
    S.Inv { s with workers := workers, seenPaths := paths, stalled := b } act' where
  edge := h.edge
  place t := by
    rw [← hact.count_eq]
    exact h.place t
  started t := by
    rw [← hact.count_eq]
    exact h.started t
  met := h.met
  copied := h.copied
  counted := h.counted
  inFlight := h.inFlight.trans hact.length_eq
  running u := (h.running u).trans (hact.countP_eq _)
  busy := (hact.countP_eq _).symm.trans h.busy
  failed_of_failure := h.failed_of_failure
  cause := h.cause

end Inv

end Scheduler

end MlirAie.Engine
