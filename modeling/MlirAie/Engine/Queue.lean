import MlirAie.Engine.Invariant
import MlirAie.Lib.Lists

/-!
# Queueing tasks and opening edges

* `inputReady_of_complete`, `inputReady_of_itemDone`: what the readiness tests tell;
* `Inv.queueWhole`, `Inv.queueItem`: a task that is ready may be queued;
* **`Inv.openEdge`**: the slots of a fan-out edge may be created.
-/

namespace MlirAie.Engine

open MlirAie.Lib

namespace Scheduler

variable {S : Scheduler} {s s' : State} {act : List Task} {u v i : ℕ} {t : Task}

/-! ## Readiness -/

theorem getElem?_of_count {l : List ℕ} {a : ℕ} (h : l.count a = l.length) (hi : i < l.length) :
    l[i]? = some a := by
  rw [List.getElem?_eq_getElem hi, List.count_eq_length.1 h _ (List.getElem_mem hi)]

theorem stateOf_of_mem (s : State) (hv : v ∈ S.edges) : S.stateOf s v = some (s.st v) :=
  if_pos hv

theorem Inv.inputReady_of_finished (h : S.Inv s act) (hfin : (s.st v).finished = true)
    (key : Option Key) : S.InputReady s v key := by
  by_cases hs : S.satisfied v = true
  · exact Or.inl hs
  · have hs := Bool.eq_false_of_not_eq_true hs
    have he := h.edge v
    cases hf : S.graph.fan v with
    | false => exact Or.inr (Or.inl ⟨hf, List.count_pos_iff.1 ((he.whole hf hs).1 hfin)⟩)
    | true =>
      have ho := he.finished_opened hfin
      have hcount := (he.fanFinished hf hs ho).1 hfin
      rw [he.itemsDone] at hcount
      refine Or.inr (Or.inr ⟨hf, ho, fun i it hi _ => List.count_pos_iff.1 ((he.done i).1 ?_)⟩)
      obtain ⟨hlt, _⟩ := List.getElem?_eq_some_iff.1 hi
      exact getElem?_of_count hcount (by rwa [he.length hf hs ho])

theorem Inv.inputReady_of_complete (h : S.Inv s act) (hv : v ∈ S.edges)
    (hc : S.nodeComplete s v = true) : S.InputReady s v none := by
  rw [nodeComplete, stateOf_of_mem s hv] at hc
  exact h.inputReady_of_finished hc none

theorem Inv.inputReady_of_itemDone (h : S.Inv s act) (hv : v ∈ S.edges) {key : Key}
    (hd : S.nodeItemDone s v key = true) : S.InputReady s v (some key) := by
  rw [nodeItemDone, stateOf_of_mem s hv] at hd
  by_cases hfin : (s.st v).finished = true
  · exact h.inputReady_of_finished hfin (some key)
  · simp only [hfin, Bool.false_eq_true, ↓reduceIte] at hd
    by_cases hopen : (S.graph.fan v && (s.st v).opened) = true
    · rw [if_pos hopen] at hd
      obtain ⟨hf, ho⟩ := Bool.and_eq_true_iff.1 hopen
      by_cases hs : S.satisfied v = true
      · exact Or.inl hs
      · have hs := Bool.eq_false_of_not_eq_true hs
        have he := h.edge v
        refine Or.inr (Or.inr ⟨hf, ho, fun i it hi hk => ?_⟩)
        have hlookup := (he.lookup hf hs ho key i).2 (by rw [hi, Option.map_some, hk key rfl])
        rw [hlookup] at hd
        exact List.count_pos_iff.1 ((he.done i).1 (of_decide_eq_true hd))
    · rw [if_neg hopen] at hd
      cases hd

/-! ## Queueing -/

def queueTask (t : Task) (f : EdgeState → EdgeState) (s : State) : State :=
  { s.update t.1 f with ready := s.ready ++ [t] }

theorem queueTask_st_of_ne {f : EdgeState → EdgeState} (h : v ≠ t.1) :
    (queueTask t f s).st v = s.st v := Function.update_of_ne h _ _

theorem queueTask_st_self {f : EdgeState → EdgeState} :
    (queueTask t f s).st t.1 = f (s.st t.1) := Function.update_self _ _ _

theorem countP_congr_finished (h : ∀ v, (s'.st v).finished = (s.st v).finished) :
    S.edges.countP (fun u => (s'.st u).finished) = S.edges.countP fun u => (s.st u).finished :=
  List.countP_congr fun v _ => by rw [h v]

/-- A task whose inputs are ready may be queued where its flag is the only one that changes. -/
theorem Inv.queue (h : S.Inv s act) {f : EdgeState → EdgeState}
    (hnew : queued (s.st t.1) t.2 = false)
    (hqueued : ∀ i, queued (f (s.st t.1)) i = (queued (s.st t.1) i || decide (i = t.2)))
    (hopened : (f (s.st t.1)).opened = (s.st t.1).opened)
    (hfinished : (f (s.st t.1)).finished = (s.st t.1).finished)
    (hrunning : (f (s.st t.1)).running = (s.st t.1).running)
    (hedge : S.EdgeInv (fun i => s.completed.count (t.1, i)) t.1 (f (s.st t.1)) (s.items t.1))
    (hmet : S.Met s t) :
    S.Inv (queueTask t f s) act ∧ Grows s (queueTask t f s) := by
  have hst (v : ℕ) : ((queueTask t f s).st v).opened = (s.st v).opened ∧
      ((queueTask t f s).st v).finished = (s.st v).finished ∧
      ((queueTask t f s).st v).running = (s.st v).running := by
    by_cases hv : v = t.1
    · subst hv
      rw [queueTask_st_self]
      exact ⟨hopened, hfinished, hrunning⟩
    · rw [queueTask_st_of_ne hv]
      exact ⟨rfl, rfl, rfl⟩
  have hq (t' : Task) : queued ((queueTask t f s).st t'.1) t'.2 =
      (queued (s.st t'.1) t'.2 || decide (t' = t)) := by
    by_cases hv : t'.1 = t.1
    · rw [hv, queueTask_st_self, hqueued, ← hv]
      congr 2
      exact propext ⟨fun h => Prod.ext hv h, fun h => congrArg Prod.snd h⟩
    · rw [queueTask_st_of_ne hv, decide_eq_false fun he => hv (congrArg Prod.fst he), Bool.or_false]
  have hgrows : Grows s (queueTask t f s) :=
    ⟨fun _ ht => ht, fun v ho => (hst v).1.trans ho, fun v hf => (hst v).2.1.trans hf,
      fun _ _ => rfl⟩
  refine ⟨⟨fun v => ?_, fun t' => ?_, h.started, fun t' ht' => ?_, fun v hf hs ho => ?_, ?_,
    h.inFlight, fun v => ?_, h.busy, h.failed_of_failure, h.cause⟩, hgrows⟩
  · by_cases hv : v = t.1
    · subst hv
      rw [queueTask_st_self]
      exact hedge
    · exact h.edge_of_ne (queueTask_st_of_ne hv) rfl fun _ => rfl
  · have hplace := h.place t'
    rw [hq]
    show (s.ready ++ [t]).count t' + act.count t' + s.completed.count t' + s.failures.count t' = _
    rw [List.count_append, List.count_singleton]
    by_cases he : t' = t
    · subst he
      rw [hnew] at hplace ⊢
      simp at hplace ⊢
      omega
    · rw [decide_eq_false he, Bool.or_false, if_neg (by simpa using Ne.symm he)]
      omega
  · rw [hq, Bool.or_eq_true, decide_eq_true_iff] at ht'
    rcases ht' with ht' | rfl
    · exact h.met_of_grows hgrows ht'
    · intro v hv
      exact (hmet v hv).mono hgrows
  · exact h.copied_of_grows hgrows hf hs ((hst v).1 ▸ ho)
  · exact h.counted.trans (countP_congr_finished fun v => (hst v).2.1).symm
  · rw [(hst v).2.2]
    exact h.running v

theorem Inv.queueWhole (h : S.Inv s act) (hu : u ∈ S.edges) (hs : S.satisfied u = false)
    (hf : S.graph.fan u = false) (hnew : (s.st u).wholeQueued = false)
    (hdeps : ∀ v ∈ S.graph.inputs u, S.nodeComplete s v = true) :
    S.Inv (queueTask (u, none) (fun e => { e with wholeQueued := true }) s) act ∧
      Grows s (queueTask (u, none) (fun e => { e with wholeQueued := true }) s) := by
  have he := h.edge u
  refine h.queue hnew (fun i => ?_) rfl rfl rfl ?_ fun v hv => ?_
  · cases i with
    | none => simp [queued]
    | some i => simp [queued]
  · exact { he with mem := fun _ => hu, kind := fun _ => ⟨hf, hs⟩ }
  · exact h.inputReady_of_complete (Graph.reachable_closed hu hs hv) (hdeps v hv)

theorem Inv.queueItem (h : S.Inv s act) (hnew : (s.st u).itemState[i]? = some 0)
    (hdeps : ∀ v ∈ S.graph.inputs u, S.nodeItemDone s v (itemKey s u i) = true) :
    S.Inv (queueTask (u, some i) (fun e => { e with itemState := e.itemState.set i 1 }) s) act ∧
      Grows s (queueTask (u, some i) (fun e => { e with itemState := e.itemState.set i 1 }) s) := by
  have he := h.edge u
  obtain ⟨hlt, hget⟩ := List.getElem?_eq_some_iff.1 hnew
  obtain ⟨hf, ho, hs⟩ := he.slots (List.ne_nil_of_length_pos (by omega))
  have hu := he.mem (Or.inl ho)
  refine h.queue ?_ (fun j => ?_) rfl rfl rfl ?_ fun v hv => ?_
  · simp [queued, hnew]
  · cases j with
    | none => simp [queued]
    | some j =>
      by_cases hj : j = i
      · subst hj
        simp [queued, hlt]
      · simp [queued, hj, Ne.symm hj]
  · exact
      { mem := he.mem
        kind := he.kind
        slots := fun _ => ⟨hf, ho, hs⟩
        done := fun j => by
          rw [← he.done j]
          by_cases hj : i = j
          · subst hj
            rw [List.getElem?_set_self hlt, hnew]
            simp
          · rw [List.getElem?_set_ne hj]
        itemsDone := by
          show (s.st u).itemsDone = _
          rw [he.itemsDone, List.count_set hlt, hget]
          rfl
        whole := he.whole
        openedWhole := he.openedWhole
        fanFinished := fun hf hs ho => by
          rw [List.length_set]
          exact he.fanFinished hf hs ho
        finished_opened := he.finished_opened
        length := fun hf hs ho => (List.length_set).trans (he.length hf hs ho)
        lookup := he.lookup
        keysNodup := he.keysNodup }
  · exact h.inputReady_of_itemDone (Graph.reachable_closed hu hs hv) (hdeps v hv)

/-! ## The duplicate-path guard -/

theorem recordPathsFrom_eq (l : List Item) (s : State) : ∃ seen dup,
    (recordPathsFrom l s).2 = { s with seenPaths := seen, duplicates := dup } ∧
      ((recordPathsFrom l s).1 = false → dup ≠ []) ∧ (s.duplicates ≠ [] → dup ≠ []) := by
  induction l generalizing s with
  | nil => exact ⟨s.seenPaths, s.duplicates, rfl, (fun h => by cases h), id⟩
  | cons it l ih =>
    rw [recordPathsFrom]
    by_cases he : it.filePath = ""
    · rw [if_pos he]
      exact ih s
    · rw [if_neg he]
      by_cases hseen : it.filePath ∈ s.seenPaths
      · rw [if_pos hseen]
        exact ⟨s.seenPaths, s.duplicates ++ [it.filePath], rfl,
          fun _ => List.append_ne_nil_of_right_ne_nil _ (List.cons_ne_nil _ _),
          fun _ => List.append_ne_nil_of_right_ne_nil _ (List.cons_ne_nil _ _)⟩
      · rw [if_neg hseen]
        exact ih _

theorem noteFinished_eq (S : Scheduler) (u : ℕ) (s : State) : ∃ seen dup failed,
    S.noteFinished u s =
        { s with
          finishedEdges := s.finishedEdges + 1, seenPaths := seen, duplicates := dup,
          failed := failed } ∧
      (s.failed = true → failed = true) ∧ (failed = true → s.failed = true ∨ dup ≠ []) ∧
      (s.duplicates ≠ [] → dup ≠ []) := by
  have hpaths : ∃ seen dup,
      (S.recordPaths u { s with finishedEdges := s.finishedEdges + 1 }).2 =
          { s with
            finishedEdges := s.finishedEdges + 1, seenPaths := seen, duplicates := dup } ∧
        ((S.recordPaths u { s with finishedEdges := s.finishedEdges + 1 }).1 = false → dup ≠ []) ∧
        (s.duplicates ≠ [] → dup ≠ []) := by
    unfold recordPaths
    by_cases hp : S.producesFiles u = true
    · rw [if_pos hp]
      exact recordPathsFrom_eq _ _
    · rw [if_neg hp]
      exact ⟨s.seenPaths, s.duplicates, rfl, (fun h => by cases h), id⟩
  obtain ⟨seen, dup, heq, hdup, hmono⟩ := hpaths
  unfold noteFinished
  dsimp only
  by_cases hr : (S.recordPaths u { s with finishedEdges := s.finishedEdges + 1 }).1 = true
  · rw [if_pos hr, heq]
    exact ⟨seen, dup, s.failed, rfl, id, Or.inl, hmono⟩
  · rw [if_neg hr, heq]
    exact ⟨seen, dup, true, rfl, fun _ => rfl,
      fun _ => Or.inr (hdup (Bool.eq_false_of_not_eq_true hr)), hmono⟩

theorem countP_finish (hu : u ∈ S.edges) (hbefore : (s.st u).finished = false)
    (hafter : (s'.st u).finished = true)
    (hother : ∀ v ≠ u, (s'.st v).finished = (s.st v).finished) :
    S.edges.countP (fun v => (s'.st v).finished) =
      S.edges.countP (fun v => (s.st v).finished) + 1 := by
  have hnodup : S.edges.Nodup := Graph.nodup_reachable
  have hperm := List.perm_cons_erase hu
  have hrest : (S.edges.erase u).countP (fun v => (s'.st v).finished) =
      (S.edges.erase u).countP fun v => (s.st v).finished := by
    refine List.countP_congr fun v hv => ?_
    rw [hother v ((List.Nodup.mem_erase_iff hnodup).1 hv).1]
  rw [hperm.countP_eq, hperm.countP_eq,
    List.countP_cons_of_pos (p := fun v => (s'.st v).finished) hafter,
    List.countP_cons_of_neg (p := fun v => (s.st v).finished)
      (by rw [hbefore]; exact Bool.false_ne_true), hrest]

/-! ## Opening an edge -/

theorem lookup_indexKeys {l : List Item} (h : (l.map Item.key).Nodup) (key : Key) (i : ℕ) :
    (indexKeys l).lookup key = some i ↔ (l[i]?).map Item.key = some key := by
  have hfst : ((indexKeys l).map Prod.fst).Nodup := by
    have : (indexKeys l).map Prod.fst = (l.map Item.key).reverse := by
      have hkey : (Prod.fst ∘ fun x : Item × ℕ => (x.1.key, x.2)) = Item.key ∘ Prod.fst := rfl
      rw [indexKeys, List.map_reverse, List.mapIdx_eq_zipIdx_map, List.map_map]
      show ((l.zipIdx).map (Prod.fst ∘ fun x : Item × ℕ => (x.1.key, x.2))).reverse = _
      rw [hkey, ← List.map_map, List.zipIdx_map_fst]
    rw [this]
    exact List.nodup_reverse.2 h
  rw [lookup_eq_some_mem hfst, indexKeys, List.mem_reverse, List.mem_mapIdx]
  constructor
  · rintro ⟨j, hj, heq⟩
    obtain ⟨rfl, rfl⟩ := Prod.mk.inj heq
    rw [List.getElem?_eq_getElem hj]
    rfl
  · intro hi
    obtain ⟨it, hit, rfl⟩ := Option.map_eq_some_iff.1 hi
    obtain ⟨hlt, rfl⟩ := List.getElem?_eq_some_iff.1 hit
    exact ⟨i, hlt, rfl⟩

/-- The slots that `prepare` creates. -/
def slots (S : Scheduler) (u : ℕ) (s : State) : List Item :=
  (((S.graph.inputs u).head?.map s.items).getD []).map fun it => ⟨it.key, S.outputPath u it.key⟩

/-- The state of an edge with its slots just created. -/
def openWith (l : List Item) (e : EdgeState) : EdgeState :=
  { e with
    opened := true, itemState := List.replicate l.length 0, keyIndex := indexKeys l,
    finished := e.finished || l.isEmpty }

theorem noteFinished_of_nil (h : s.items u = []) :
    S.noteFinished u s = { s with finishedEdges := s.finishedEdges + 1 } := by
  have hpaths : S.recordPaths u { s with finishedEdges := s.finishedEdges + 1 } =
      (true, { s with finishedEdges := s.finishedEdges + 1 }) := by
    unfold recordPaths
    by_cases hp : S.producesFiles u = true
    · rw [if_pos hp]
      show recordPathsFrom (s.items u) _ = _
      rw [h]
      rfl
    · rw [if_neg hp]
  unfold noteFinished
  rw [hpaths]
  rfl

theorem openEdge_eq (S : Scheduler) (u : ℕ) (s : State) :
    S.openEdge u s =
      { s.update u (openWith (S.slots u s)) with
        items := Function.update s.items u (S.slots u s),
        finishedEdges := s.finishedEdges + if (S.slots u s).isEmpty then 1 else 0 } := by
  have hitems : (S.prepare u s).items u = S.slots u s := Function.update_self _ _ _
  have hopen : ((S.prepare u s).update u fun e =>
      { e with
        opened := true, itemState := List.replicate ((S.prepare u s).items u).length 0,
        keyIndex := indexKeys ((S.prepare u s).items u),
        finished := e.finished || ((S.prepare u s).items u).isEmpty }) =
      { s.update u (openWith (S.slots u s)) with
        items := Function.update s.items u (S.slots u s) } := by
    rw [hitems]
    rfl
  unfold openEdge
  dsimp only
  rw [hopen]
  show (if (Function.update s.items u (S.slots u s) u).isEmpty = true then _ else _) = _
  rw [Function.update_self]
  by_cases he : (S.slots u s).isEmpty = true
  · rw [if_pos he, if_pos he, noteFinished_of_nil]
    · rfl
    · show Function.update s.items u (S.slots u s) u = []
      rw [Function.update_self]
      exact List.isEmpty_iff.1 he
  · rw [if_neg he, if_neg he]
    rfl

theorem openEdge_st_self : (S.openEdge u s).st u = openWith (S.slots u s) (s.st u) := by
  rw [openEdge_eq]
  exact Function.update_self _ _ _

theorem openEdge_st_of_ne (h : v ≠ u) : (S.openEdge u s).st v = s.st v := by
  rw [openEdge_eq]
  exact Function.update_of_ne h _ _

theorem openEdge_items_self : (S.openEdge u s).items u = S.slots u s := by
  rw [openEdge_eq]
  exact Function.update_self _ _ _

theorem openEdge_items_of_ne (h : v ≠ u) : (S.openEdge u s).items v = s.items v := by
  rw [openEdge_eq]
  exact Function.update_of_ne h _ _

/-- The first input gives a fan-out edge its keys. -/
theorem exists_slots (hf : S.graph.fan u = true) : ∃ v, (S.graph.inputs u).head? = some v ∧
    v ∈ S.graph.inputs u ∧ (S.slots u s).map Item.key = (s.items v).map Item.key := by
  cases hin : S.graph.inputs u with
  | nil => exact absurd hin (Graph.inputs_ne_nil hf)
  | cons v vs =>
    refine ⟨v, rfl, List.mem_cons_self, ?_⟩
    unfold slots
    rw [hin]
    show List.map Item.key (List.map _ (s.items v)) = _
    rw [List.map_map]
    rfl

theorem queued_openWith {e : EdgeState} (h : e.itemState = []) (l : List Item) (i : Option ℕ) :
    queued (openWith l e) i = queued e i := by
  cases i with
  | none => rfl
  | some i =>
    have hreplicate : ((List.replicate l.length 0)[i]?).getD 0 = 0 := by
      rw [List.getElem?_replicate]
      by_cases hi : i < l.length
      · rw [if_pos hi]
        rfl
      · rw [if_neg hi]
        rfl
    simp only [queued, openWith, hreplicate, h, List.getElem?_nil, Option.getD_none]

theorem EdgeInv.itemState_nil {c : Option ℕ → ℕ} {e : EdgeState} {items : List Item}
    (h : S.EdgeInv c u e items) (ho : e.opened = false) : e.itemState = [] := by
  by_contra hne
  rw [(h.slots hne).2.1] at ho
  cases ho

theorem EdgeInv.openWith {c : Option ℕ → ℕ} {e : EdgeState} {items l : List Item}
    (h : S.EdgeInv c u e items) (hu : u ∈ S.edges) (hf : S.graph.fan u = true)
    (hs : S.satisfied u = false) (ho : e.opened = false) (hl : (l.map Item.key).Nodup) :
    S.EdgeInv c u (openWith l e) l := by
  have hnil := h.itemState_nil ho
  have hnone (i : ℕ) : ¬0 < c (some i) := fun hc => by
    have := (h.done i).2 hc
    rw [hnil] at this
    cases this
  have hfin : e.finished = false := by
    by_contra hne
    rw [h.finished_opened (Bool.eq_true_of_not_eq_false hne)] at ho
    cases ho
  have hdone : e.itemsDone = 0 := by
    rw [h.itemsDone, hnil]
    rfl
  exact
    { mem := fun _ => hu
      kind := h.kind
      slots := fun _ => ⟨hf, rfl, hs⟩
      done := fun i => by
        refine iff_of_false (fun hi => ?_) (hnone i)
        have := List.eq_of_mem_replicate (List.mem_of_getElem? hi)
        omega
      itemsDone := by
        show e.itemsDone = (List.replicate l.length 0).count 2
        rw [hdone, List.count_replicate]
        rfl
      whole := fun hf' => absurd (hf.symm.trans hf') (by simp)
      openedWhole := fun hf' => absurd (hf.symm.trans hf') (by simp)
      fanFinished := fun _ _ _ => by
        show (e.finished || l.isEmpty) = true ↔ e.itemsDone = (List.replicate l.length 0).length
        rw [hfin, hdone, Bool.false_or, List.isEmpty_iff, List.length_replicate,
          ← List.length_eq_zero_iff]
        exact eq_comm
      finished_opened := fun _ => rfl
      length := fun _ _ _ => List.length_replicate
      lookup := fun _ _ _ => lookup_indexKeys hl
      keysNodup := fun _ => hl }

/-- **The slots of a fan-out edge** may be created once the keys of its inputs are final. -/
theorem Inv.openEdge (h : S.Inv s act) (hu : u ∈ S.edges) (hf : S.graph.fan u = true)
    (hs : S.satisfied u = false) (ho : (s.st u).opened = false)
    (hkeys : ∀ v ∈ S.graph.inputs u, S.nodeFinalKeys s v = true) :
    S.Inv (S.openEdge u s) act ∧ Grows s (S.openEdge u s) := by
  have he := h.edge u
  have hnil := he.itemState_nil ho
  obtain ⟨w, hw, hwmem, hwkeys⟩ := @exists_slots S s u hf
  have hwu : w ≠ u := (Graph.inputs_lt hwmem).ne
  have hwo : (s.st w).opened = true := by
    have := hkeys w hwmem
    rwa [nodeFinalKeys, stateOf_of_mem s (Graph.reachable_closed hu hs hwmem)] at this
  have hnodup : ((S.slots u s).map Item.key).Nodup := by
    rw [hwkeys]
    exact (h.edge w).keysNodup hwo
  have hedge : S.EdgeInv (fun i => s.completed.count (u, i)) u (openWith (S.slots u s) (s.st u))
      (S.slots u s) := he.openWith hu hf hs ho hnodup
  have hfin : (s.st u).finished = false := by
    by_contra hne
    rw [he.finished_opened (Bool.eq_true_of_not_eq_false hne)] at ho
    cases ho
  have hrunning (v : ℕ) : ((S.openEdge u s).st v).running = (s.st v).running := by
    by_cases hv : v = u
    · subst hv
      rw [openEdge_st_self]
      rfl
    · rw [openEdge_st_of_ne hv]
  have hqueued (t : Task) : queued ((S.openEdge u s).st t.1) t.2 = queued (s.st t.1) t.2 := by
    by_cases hv : t.1 = u
    · rw [hv, openEdge_st_self]
      exact queued_openWith hnil _ _
    · rw [openEdge_st_of_ne hv]
  have hgrows : Grows s (S.openEdge u s) := by
    refine ⟨fun t ht => ?_, fun v hv => ?_, fun v hv => ?_, fun v hv => ?_⟩
    · rw [openEdge_eq]
      exact ht
    · by_cases hvu : v = u
      · subst hvu
        rw [openEdge_st_self]
        rfl
      · rwa [openEdge_st_of_ne hvu]
    · have hvu : v ≠ u := fun heq => by
        rw [heq, hfin] at hv
        cases hv
      rwa [openEdge_st_of_ne hvu]
    · have hvu : v ≠ u := fun heq => by
        rw [heq, ho] at hv
        cases hv
      rw [openEdge_items_of_ne hvu]
  have hcompleted : (S.openEdge u s).completed = s.completed := by rw [openEdge_eq]; rfl
  refine ⟨⟨fun v => ?_, fun t => ?_, fun t => ?_, fun t ht => ?_, fun v hfv hsv hov => ?_, ?_,
    ?_, fun v => ?_, ?_, ?_, ?_⟩, hgrows⟩
  · by_cases hv : v = u
    · subst hv
      rw [openEdge_st_self, openEdge_items_self, hcompleted]
      exact hedge
    · exact h.edge_of_ne (openEdge_st_of_ne hv) (openEdge_items_of_ne hv) fun _ => by
        rw [hcompleted]
  · rw [hqueued, openEdge_eq]
    exact h.place t
  · rw [openEdge_eq]
    exact h.started t
  · rw [hqueued] at ht
    exact h.met_of_grows hgrows ht
  · by_cases hv : v = u
    · subst hv
      exact ⟨w, hw, hgrows.opened w hwo, by
        rw [openEdge_items_self, openEdge_items_of_ne hwu, hwkeys]⟩
    · rw [openEdge_st_of_ne hv] at hov
      exact h.copied_of_grows hgrows hfv hsv hov
  · have hcount : (S.openEdge u s).finishedEdges =
        s.finishedEdges + if (S.slots u s).isEmpty then 1 else 0 := by
      rw [openEdge_eq]
    have hother (v : ℕ) (hv : v ≠ u) :
        ((S.openEdge u s).st v).finished = (s.st v).finished := by
      rw [openEdge_st_of_ne hv]
    have hself : ((S.openEdge u s).st u).finished = (S.slots u s).isEmpty := by
      rw [openEdge_st_self]
      show ((s.st u).finished || _) = _
      rw [hfin, Bool.false_or]
    rw [hcount, h.counted]
    by_cases hempty : (S.slots u s).isEmpty = true
    · rw [if_pos hempty, countP_finish hu hfin (hself.trans hempty) hother]
    · rw [if_neg hempty]
      refine (countP_congr_finished fun v => ?_).symm
      by_cases hv : v = u
      · subst hv
        rw [hself, hfin]
        exact Bool.eq_false_of_not_eq_true hempty
      · exact hother v hv
  · rw [openEdge_eq]
    exact h.inFlight
  · rw [hrunning]
    exact h.running v
  · rw [openEdge_eq]
    exact h.busy
  · rw [openEdge_eq]
    exact h.failed_of_failure
  · rw [openEdge_eq]
    exact h.cause

end Scheduler

end MlirAie.Engine
