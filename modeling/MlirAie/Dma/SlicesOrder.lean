import MlirAie.Dma.SlicesRound

/-!
# The pass keeps a block's order

The pass goes over the operations of a block in order. Before each, what is left of the block is where
it was, the operations of the round follow it, and all else is in the order in which they have to be.

* `Ordering.pass`, `append`, `head`, `pending`: an operation, one by one;
* `splitIntoTasks_split`: what is known of the block;
* **`orderSlices_keepsOrder`**: starts and late configures only move where they may.
-/

namespace MlirAie.Dma.Slices

open MlirAie.Lib

variable {channel : ℕ → Option ChannelKey} {full rest done : List SliceOp} {s : OrderState}
  {items : List RoundItem} {o : SliceOp} {c : ChannelKey}

/-! ## One operation -/

theorem Ordering.pass (h : Ordering channel full (o :: rest) s done [])
    (ho : ∀ task, o.starts task = true → channel task.task = none) :
    Ordering channel full rest s (done ++ [o]) [] where
  block := by
    rw [h.block]
    simp
  kept := h.kept
  late := h.late
  notStarted := fun c hc hch o' ho' => by
    rcases List.mem_append.1 ho' with ho' | ho'
    · exact h.notStarted c hc hch o' ho'
    · refine Bool.eq_false_iff.2 fun hstart => ?_
      rw [List.mem_singleton.1 ho'] at hstart
      rw [ho _ hstart] at hch
      cases hch
  lateNodup := h.lateNodup
  round := h.round

theorem Round.concat_op (h : Round channel items s) (ho : ∀ task, o.starts task = false)
    (hstops : ∀ p ∈ s.pending, Stops channel p.task o = false) :
    Round channel (items ++ [.op o]) s where
  pending := by
    rw [h.pending]
    simp [RoundItem.pending]
  round := fun c => by
    rw [h.round]
    simp [RoundItem.channel?]
  anchor := by
    rw [h.anchor]
    simp [RoundItem.head?]
  channels := by
    rw [List.filterMap_append]
    exact (List.append_nil _).symm ▸ h.channels
  valid := fun i hi => by
    rcases List.mem_append.1 hi with hi | hi
    · exact h.valid i hi
    · rw [List.mem_singleton.1 hi]
      exact ho
  stops := by
    refine List.pairwise_append.2 ⟨h.stops, List.pairwise_singleton _ _, ?_⟩
    intro i hi j hj p hp o' ho'
    rw [List.mem_singleton.1 hj] at ho'
    rw [List.mem_singleton.1 ho']
    refine hstops p ?_
    rw [h.pending]
    exact List.mem_flatMap.2 ⟨i, hi, hp⟩

/-- An operation that starts may pass is one of the round. -/
theorem Ordering.append (h : Ordering channel full (o :: rest) s done items)
    (ho : ∀ task, o.starts task = false)
    (hstops : ∀ p ∈ s.pending, Stops channel p.task o = false) :
    Ordering channel full rest s done (items ++ [.op o]) where
  block := by
    rw [h.block]
    simp [RoundItem.ops]
  kept := h.kept
  late := h.late
  notStarted := h.notStarted
  lateNodup := h.lateNodup
  round := h.round.concat_op ho hstops

theorem Stops_of_startsOn (h : o.startsOn channel c = true) (task : TaskRef) :
    Stops channel task o = false := by
  obtain ⟨t, ht, hch⟩ := SliceOp.startsOn_iff.1 h
  obtain ⟨r, g, hkind⟩ := SliceOp.starts_iff.1 ht
  simp [Stops, hkind, hch]

/-- A start on a channel of its own begins a group. -/
theorem Ordering.head (h : Ordering channel full (o :: rest) s done items)
    (hstart : o.startsOn channel c = true) (hslice : ∀ task, o.starts task = true → task.slice = 0)
    (hc : c ∉ s.round) (slice : Option SliceStart) :
    Ordering channel full rest (visitHead s o slice c) done (items ++ [.group c o []]) where
  block := by
    rw [visitHead, h.block]
    simp [RoundItem.ops]
  kept := h.kept
  late := h.late
  notStarted := h.notStarted
  lateNodup := h.lateNodup
  round := by
    refine ⟨?_, fun c' => ?_, ?_, ?_, fun i hi => ?_, ?_⟩
    · rw [visitHead, h.round.pending]
      simp [RoundItem.pending]
    · rw [visitHead, List.mem_cons, h.round.round]
      simp [RoundItem.channel?, or_comm]
    · simp [visitHead, RoundItem.head?]
    · rw [List.filterMap_append]
      refine List.Nodup.append h.round.channels (List.nodup_singleton c) fun c' hm hc' => ?_
      obtain rfl := List.mem_singleton.1 hc'
      exact hc ((h.round.round _).2 hm)
    · rcases List.mem_append.1 hi with hi | hi
      · exact h.round.valid i hi
      · rw [List.mem_singleton.1 hi]
        exact ⟨hstart, hslice, fun p hp => absurd hp List.not_mem_nil, .nil⟩
    · refine List.pairwise_append.2 ⟨h.round.stops, List.pairwise_singleton _ _, ?_⟩
      intro i _ j hj p _ o' ho'
      rw [List.mem_singleton.1 hj] at ho'
      rw [List.mem_singleton.1 ho']
      exact Stops_of_startsOn hstart p.task

/-- A later start of the group that was begun last waits. -/
theorem Ordering.pending {head : SliceOp} {pending : List Pending} {p : Pending}
    (h : Ordering channel full (p.start :: rest) s done (items ++ [.group c head pending]))
    (hstart : p.start.starts p.task = true) (hch : channel p.task.task = some c)
    (hle : ∀ q ∈ pending, q.le p = true) :
    Ordering channel full rest { s with pending := s.pending ++ [p] } done
      (items ++ [.group c head (pending ++ [p])]) where
  block := by
    rw [h.block]
    simp [RoundItem.ops]
  kept := h.kept
  late := h.late
  notStarted := h.notStarted
  lateNodup := h.lateNodup
  round := by
    have hon := SliceOp.startsOn_iff.2 ⟨_, hstart, hch⟩
    refine ⟨?_, fun c' => ?_, ?_, ?_, fun i hi => ?_, ?_⟩
    · rw [h.round.pending]
      simp [RoundItem.pending]
    · rw [h.round.round]
      simp [RoundItem.channel?]
    · rw [h.round.anchor]
      simp [RoundItem.head?]
    · simpa [RoundItem.channel?] using h.round.channels
    · rcases List.mem_append.1 hi with hi | hi
      · exact h.round.valid i (List.mem_append_left _ hi)
      · obtain ⟨hhead, hslice, hstarts, hsorted⟩ :=
          h.round.valid _ (List.mem_append_right _ (List.mem_singleton_self _))
        rw [List.mem_singleton.1 hi]
        refine ⟨hhead, hslice, fun q hq => ?_, ?_⟩
        · rcases List.mem_append.1 hq with hq | hq
          · exact hstarts q hq
          · rw [List.mem_singleton.1 hq]
            exact ⟨hstart, hch⟩
        · refine List.pairwise_append.2 ⟨hsorted, List.pairwise_singleton _ _, ?_⟩
          intro a ha b hb
          rw [List.mem_singleton.1 hb]
          exact hle a ha
    · obtain ⟨hfirst, -, hlast⟩ := List.pairwise_append.1 h.round.stops
      refine List.pairwise_append.2 ⟨hfirst, List.pairwise_singleton _ _, ?_⟩
      intro i hi j hj q hq o' ho'
      rw [List.mem_singleton.1 hj] at ho'
      rcases List.mem_cons.1 ho' with rfl | ho'
      · exact hlast i hi _ (List.mem_singleton_self _) q hq _ List.mem_cons_self
      obtain ⟨q', hq', rfl⟩ := List.mem_map.1 ho'
      rcases List.mem_append.1 hq' with hq' | hq'
      · exact hlast i hi _ (List.mem_singleton_self _) q hq _
          (List.mem_cons_of_mem _ (List.mem_map_of_mem hq'))
      · rw [List.mem_singleton.1 hq']
        exact Stops_of_startsOn hon q.task

/-! ## The pass -/

variable (channel full rest s) in
def Ordered : Prop := ∃ done items, Ordering channel full rest s done items

theorem Ordered.pass (hfull : SplitBlock full) (h : Ordered channel full (o :: rest) s)
    (ho : ∀ task, o.starts task = true → channel task.task = none) :
    Ordered channel full rest (flush s) := by
  obtain ⟨done, items, h⟩ := h
  obtain ⟨done', h⟩ := h.flushed hfull
  exact ⟨_, _, h.pass ho⟩

theorem Ordered.visit_other (hfull : SplitBlock full) (h : Ordered channel full (o :: rest) s)
    (ho : ∀ task, o.starts task = false) : Ordered channel full rest (visit channel s o) := by
  have hpass := h.pass hfull fun task htask => absurd htask (by simp [ho task])
  have happend : (∀ p ∈ s.pending, Stops channel p.task o = false) → Ordered channel full rest s :=
    fun hstops => by
      obtain ⟨done, items, h⟩ := h
      exact ⟨done, _, h.append ho hstops⟩
  rw [visit]
  cases hkind : o.kind with
  | start task r g =>
    have := ho task
    simp [SliceOp.starts, hkind] at this
  | configure g => exact happend fun p _ => by simp [Stops, hkind]
  | passed => exact happend fun p _ => by simp [Stops, hkind]
  | await task => exact hpass
  | effect => exact hpass
  | free task =>
    by_cases hmem : task ∈ s.pending.map (·.task)
    · simp only [hmem, if_true]
      exact hpass
    · simp only [hmem, if_false]
      refine happend fun p hp => ?_
      have hne : task ≠ p.task := fun heq => hmem (heq ▸ List.mem_map_of_mem hp)
      simp [Stops, hkind, hne]

theorem Ordered.visit_unplaced (hfull : SplitBlock full) (h : Ordered channel full (o :: rest) s)
    {task : TaskRef} {r : StartRepeat} {slice : Option SliceStart}
    (hkind : o.kind = .start task r slice) (hch : channel task.task = none) :
    Ordered channel full rest (visit channel s o) := by
  have hpass := h.pass hfull fun task' htask => by
    rw [SliceOp.starts_unique htask (SliceOp.starts_iff.2 ⟨r, slice, hkind⟩), hch]
  rw [visit, hkind]
  simp only [hch]
  exact hpass

theorem Ordered.visit_head (hfull : SplitBlock full) (h : Ordered channel full (o :: rest) s)
    {task : ℕ} {r : StartRepeat} {slice : Option SliceStart}
    (hkind : o.kind = .start ⟨task, 0⟩ r slice) (hch : channel task = some c)
    (hslice : ∀ g, slice = some g → g.index = 0) :
    ∃ done items, Ordering channel full rest (visit channel s o) done (items ++ [.group c o []]) ∧
      ∀ g, slice = some g → ∃ head, (visit channel s o).headOfGroup g.group = some head := by
  have hstart : o.starts ⟨task, 0⟩ = true := SliceOp.starts_iff.2 ⟨r, slice, hkind⟩
  have hon : o.startsOn channel c = true := SliceOp.startsOn_iff.2 ⟨_, hstart, hch⟩
  have hzero : ∀ task', o.starts task' = true → task'.slice = 0 := fun task' h => by
    rw [SliceOp.starts_unique h hstart]
  have hpending : pendingOf s o ⟨task, 0⟩ slice = none := by
    cases slice with
    | none => rfl
    | some g => simp [pendingOf, hslice g rfl]
  have hvisit : visit channel s o =
      visitHead (if c ∈ s.round then flush s else s) o slice c := by
    rw [visit, hkind]
    simp only [hch, hpending]
  rw [hvisit]
  obtain ⟨done, items, h⟩ := h
  have hgroup : ∀ s' : OrderState, ∀ g, slice = some g →
      ∃ head, (visitHead s' o slice c).headOfGroup g.group = some head := by
    rintro s' g rfl
    exact ⟨s'.heads, by simp [visitHead]⟩
  by_cases hc : c ∈ s.round
  · rw [if_pos hc]
    obtain ⟨done', h⟩ := h.flushed hfull
    exact ⟨done', [], h.head hon hzero List.not_mem_nil slice, hgroup _⟩
  · rw [if_neg hc]
    exact ⟨done, items, h.head hon hzero hc slice, hgroup _⟩

theorem Ordering.foldl_visit {head : SliceOp} {pending : List Pending} {group n hd task : ℕ}
    {starts : List SliceOp}
    (h : Ordering channel full (starts ++ rest) s done (items ++ [.group c head pending]))
    (hch : channel task = some c) (hhead : s.headOfGroup group = some hd)
    (hstarts : ∀ o ∈ starts, ∃ slice r g, o.kind = .start ⟨task, slice⟩ r (some g) ∧
      g.group = group ∧ g.count = n ∧ g.index = o.number ∧ 0 < g.index)
    (hsorted : starts.Pairwise fun o o' => o.number < o'.number)
    (hpending : ∀ p ∈ pending, p.count = n ∧ p.head = hd ∧
      ∀ o ∈ starts, p.index < o.number) :
    Ordered channel full rest (starts.foldl (visit channel) s) := by
  induction starts generalizing s pending with
  | nil => exact ⟨done, _, h⟩
  | cons o starts ih =>
    obtain ⟨slice, r, g, hkind, hgroup, hcount, hindex, hpos⟩ := hstarts o List.mem_cons_self
    have hvisit : visit channel s o = { s with pending := s.pending ++
        [⟨o, ⟨task, slice⟩, g.index, g.count, hd, (Nat.zero_le _).trans_lt (g.index_lt hpos)⟩] } := by
      rw [visit, hkind]
      simp only [hch, pendingOf, Option.bind_some, dif_pos hpos, hgroup, hhead, Option.map_some]
    rw [List.foldl_cons, hvisit]
    have hstart : o.starts ⟨task, slice⟩ = true := SliceOp.starts_iff.2 ⟨r, some g, hkind⟩
    refine ih (h.pending (p := ⟨o, ⟨task, slice⟩, g.index, g.count, hd, _⟩) hstart hch
      fun q hq => ?_) hhead (fun o' ho' => hstarts o' (List.mem_cons_of_mem _ ho'))
      (List.pairwise_cons.1 hsorted).2 fun p hp => ?_
    · obtain ⟨hqc, hqh, hqi⟩ := hpending q hq
      rw [Pending.le_iff]
      left
      simp only [hqc, hcount]
      have hlt := hqi o List.mem_cons_self
      rw [← hindex] at hlt
      exact Nat.mul_lt_mul_of_pos_right hlt (hqc ▸ q.count_pos)
    · rcases List.mem_append.1 hp with hp | hp
      · obtain ⟨hpc, hph, hpi⟩ := hpending p hp
        exact ⟨hpc, hph, fun o' ho' => hpi o' (List.mem_cons_of_mem _ ho')⟩
      · rw [List.mem_singleton.1 hp]
        exact ⟨hcount, rfl, fun o' ho' =>
          hindex.trans_lt ((List.pairwise_cons.1 hsorted).1 o' ho')⟩

theorem Ordered.foldl_starts (hfull : SplitBlock full) {starts : List SliceOp}
    (h : Ordered channel full (starts ++ rest) s) {t i n : ℕ}
    (hkind : ∀ o ∈ starts, ∃ slice r, ∃ g : SliceStart, o.kind = .start ⟨t, slice⟩ r (some g) ∧
      g.group = i ∧ g.count = n ∧ g.index = o.number ∧ (o.number = 0 → slice = 0))
    (hsorted : starts.Pairwise fun o o' => o.number < o'.number)
    (hfirst : ∀ o ∈ starts.head?, o.number = 0) :
    Ordered channel full rest (starts.foldl (visit channel) s) := by
  cases hch : channel t with
  | none =>
    clear hsorted hfirst
    induction starts generalizing s with
    | nil => exact h
    | cons o starts ih =>
      obtain ⟨slice, r, g, hk, -⟩ := hkind o List.mem_cons_self
      exact ih (h.visit_unplaced hfull hk hch) fun o' ho' => hkind o' (List.mem_cons_of_mem _ ho')
  | some c =>
    cases starts with
    | nil => exact h
    | cons o starts =>
      obtain ⟨slice, r, g, hk, hgroup, -, hindex, hzero⟩ := hkind o List.mem_cons_self
      have ho := hfirst o rfl
      rw [hzero ho] at hk
      obtain ⟨done, items, hhead, hg⟩ := h.visit_head hfull hk hch fun g' hg' => by
        rw [← Option.some.inj hg', hindex, ho]
      obtain ⟨head, hhd⟩ := hg g rfl
      refine hhead.foldl_visit (n := n) hch (hgroup ▸ hhd) (fun o' ho' => ?_)
        (List.pairwise_cons.1 hsorted).2 fun p hp => absurd hp List.not_mem_nil
      obtain ⟨slice', r', g', hk', hgroup', hcount', hindex', -⟩ :=
        hkind o' (List.mem_cons_of_mem _ ho')
      refine ⟨slice', r', g', hk', hgroup', hcount', hindex', hindex' ▸ ?_⟩
      exact (Nat.zero_le _).trans_lt ((List.pairwise_cons.1 hsorted).1 o' ho')

theorem Ordered.foldl_other (hfull : SplitBlock full) {ops : List SliceOp}
    (h : Ordered channel full (ops ++ rest) s) (hops : ∀ o ∈ ops, ∀ task, o.starts task = false) :
    Ordered channel full rest (ops.foldl (visit channel) s) := by
  induction ops generalizing s with
  | nil => exact h
  | cons o ops ih =>
    exact ih (h.visit_other hfull (hops o List.mem_cons_self)) fun o' ho' =>
      hops o' (List.mem_cons_of_mem _ ho')

def SeqOp.Becomes : SeqOp → SliceKind → Prop
  | .configure, .configure _ => True
  | .start task _, .start t _ _ => t.task = task
  | .free task, .free t => t.task = task
  | .await task, .await t => t.task = task
  | .passed, .passed => True
  | .effect, .effect => True
  | _, _ => False

theorem becomes_of_mem {calls : ℕ → Option Split} {place : ℕ} {op : SeqOp}
    (h : o ∈ splitOp calls place op) : op.Becomes o.kind := by
  cases op with
  | configure =>
    cases hcall : calls place <;> simp only [splitOp, hcall, List.mem_map, List.mem_singleton] at h
    · rw [h]
      trivial
    · obtain ⟨i, -, rfl⟩ := h
      trivial
  | start t op =>
    cases hcall : calls t <;> simp only [splitOp, hcall, List.mem_map, List.mem_singleton] at h
    · rw [h]
      rfl
    · obtain ⟨i, -, rfl⟩ := h
      rfl
  | free t =>
    cases hcall : calls t <;> simp only [splitOp, hcall, List.mem_map, List.mem_singleton] at h
    · rw [h]
      rfl
    · obtain ⟨i, -, rfl⟩ := h
      rfl
  | await t =>
    rw [List.mem_singleton.1 h]
    rfl
  | passed =>
    rw [List.mem_singleton.1 h]
    trivial
  | effect =>
    rw [List.mem_singleton.1 h]
    trivial

theorem SeqOp.Becomes.start {op : SeqOp} {task : TaskRef} (h : op.Becomes o.kind)
    (hstart : o.starts task = true) : ∃ op', op = .start task.task op' := by
  obtain ⟨r, g, hkind⟩ := SliceOp.starts_iff.1 hstart
  rw [hkind] at h
  cases op with
  | start t op' =>
    obtain rfl : task.task = t := h
    exact ⟨op', rfl⟩
  | _ => cases h

theorem SeqOp.Becomes.configure {op : SeqOp} {task : TaskRef} (h : op.Becomes o.kind)
    (hconf : o.configures task = true) : op = .configure := by
  obtain ⟨⟨g, hkind⟩, -⟩ := SliceOp.configures_iff.1 hconf
  rw [hkind] at h
  cases op with
  | configure => rfl
  | _ => cases h

theorem splitOp_pairwise (calls : ℕ → Option Split) (place : ℕ) (op : SeqOp) :
    (∀ o ∈ splitOp calls place op, o.place = place) ∧
      (splitOp calls place op).Pairwise fun o o' => o.number < o'.number := by
  cases op with
  | configure =>
    cases hcall : calls place <;> simp only [splitOp, hcall]
    · simp
    · refine ⟨fun o ho => ?_, List.pairwise_map.2 List.pairwise_lt_range⟩
      obtain ⟨i, -, rfl⟩ := List.mem_map.1 ho
      rfl
  | start t op =>
    cases hcall : calls t <;> simp only [splitOp, hcall]
    · simp
    · refine ⟨fun o ho => ?_, List.pairwise_map.2 (List.pairwise_lt_finRange _)⟩
      obtain ⟨i, -, rfl⟩ := List.mem_map.1 ho
      rfl
  | free t =>
    cases hcall : calls t <;> simp only [splitOp, hcall]
    · simp
    · refine ⟨fun o ho => ?_, List.pairwise_map.2 List.pairwise_lt_range⟩
      obtain ⟨i, -, rfl⟩ := List.mem_map.1 ho
      rfl
  | await t => simp [splitOp]
  | passed => simp [splitOp]
  | effect => simp [splitOp]

/-- **What an operation becomes** is passed. -/
theorem Ordered.foldl_splitOp (hfull : SplitBlock full) {calls : ℕ → Option Split} {place : ℕ}
    {op : SeqOp} (h : Ordered channel full (splitOp calls place op ++ rest) s) :
    Ordered channel full rest ((splitOp calls place op).foldl (visit channel) s) := by
  cases op with
  | start task op =>
    cases hcall : calls task with
    | none =>
      simp only [splitOp, hcall] at h ⊢
      cases hch : channel task with
      | none => exact h.visit_unplaced hfull rfl hch
      | some c =>
        obtain ⟨done, items, hhead, -⟩ := h.visit_head hfull rfl hch fun g hg => nomatch hg
        exact ⟨done, _, hhead⟩
    | some call =>
      refine h.foldl_starts (i := place) (t := task) (n := call.count op) hfull ?_ ?_ ?_
      · intro o ho
        simp only [splitOp, hcall, List.mem_map] at ho
        obtain ⟨k, -, rfl⟩ := ho
        exact ⟨_, _, _, rfl, rfl, rfl, rfl, fun hk => by simp only at hk; rw [hk, Nat.zero_mod]⟩
      · simp only [splitOp, hcall]
        exact List.pairwise_map.2 (List.pairwise_lt_finRange _)
      · -- the first in the order of the numbers is number zero
        intro o ho
        have hsorted := (splitOp_pairwise calls place (.start task op)).2
        have hzero : ∃ o' ∈ splitOp calls place (.start task op), o'.number = 0 := by
          simp only [splitOp, hcall, List.mem_map]
          exact ⟨_, ⟨⟨0, by omega⟩, List.mem_finRange _, rfl⟩, rfl⟩
        obtain ⟨o', ho', hnum⟩ := hzero
        obtain ⟨l, hl⟩ := List.head?_eq_some_iff.1 ho
        rw [hl] at hsorted ho'
        rcases List.mem_cons.1 ho' with rfl | ho'
        · exact hnum
        · have := (List.pairwise_cons.1 hsorted).1 o' ho'
          omega
  | _ =>
    refine h.foldl_other hfull fun o ho task => Bool.eq_false_iff.2 fun hstart => ?_
    obtain ⟨op', hop⟩ := (becomes_of_mem ho).start hstart
    cases hop

/-! ## Split blocks -/

theorem splitIntoTasks_pairwise (calls : ℕ → Option Split) (block : List SeqOp) :
    (splitIntoTasks calls block).Pairwise fun o o' =>
      o.place < o'.place ∨ (o.place = o'.place ∧ o.number < o'.number) := by
  rw [splitIntoTasks, List.pairwise_flatMap]
  refine ⟨fun op _ => ?_, ?_⟩
  · obtain ⟨hplace, hnumber⟩ := splitOp_pairwise calls op.2 op.1
    refine hnumber.imp_of_mem fun ho ho' hlt => .inr ⟨?_, hlt⟩
    rw [hplace _ ho, hplace _ ho']
  · have hsorted : block.zipIdx.Pairwise fun a b => a.2 < b.2 :=
      List.pairwise_map.1 (by
        rw [List.zipIdx_map_snd]
        exact List.pairwise_lt_range')
    refine hsorted.imp fun hlt o ho o' ho' => .inl ?_
    rw [(splitOp_pairwise calls _ _).1 o ho, (splitOp_pairwise calls _ _).1 o' ho']
    exact hlt

theorem mem_splitIntoTasks {calls : ℕ → Option Split} {block : List SeqOp} {o : SliceOp}
    (h : o ∈ splitIntoTasks calls block) : ∃ op, block[o.place]? = some op ∧
      o ∈ splitOp calls o.place op := by
  obtain ⟨op, hop, ho⟩ := List.mem_flatMap.1 h
  have hplace := (splitOp_pairwise calls op.2 op.1).1 o ho
  rw [hplace]
  exact ⟨op.1, List.mem_zipIdx_iff_getElem?.1 hop, ho⟩

/-- **A split block** has each operation once, and configures a task before its starts if the block
did. -/
theorem splitIntoTasks_split (calls : ℕ → Option Split) {block : List SeqOp}
    (hssa : ∀ (n t : ℕ) (op : DMAStartTask), block[n]? = some (SeqOp.start t op) →
      block[t]? = some SeqOp.configure → t < n) :
    SplitBlock (splitIntoTasks calls block) := by
  have hsorted := splitIntoTasks_pairwise calls block
  have hkeys : ((splitIntoTasks calls block).map fun o => (o.place, o.number)).Nodup := by
    refine List.pairwise_map.2 (hsorted.imp fun h heq => ?_)
    obtain ⟨hplace, hnumber⟩ := Prod.mk.inj heq
    omega
  refine ⟨hkeys.of_map, fun o ho o' ho' task hc hc' => ?_,
    fun pre o post task c hblock hstart hmem hconf => ?_⟩
  · have htask := (SliceOp.configures_iff.1 hc).2
    rw [(SliceOp.configures_iff.1 hc').2] at htask
    obtain ⟨hplace, hnumber⟩ := TaskRef.mk.inj htask
    exact List.inj_on_of_nodup_map hkeys ho ho' (by rw [hplace, hnumber])
  · have ho : o ∈ splitIntoTasks calls block := hblock ▸ List.mem_append_right _ List.mem_cons_self
    obtain ⟨sop, hsop, hos⟩ := mem_splitIntoTasks ho
    obtain ⟨op', rfl⟩ := (becomes_of_mem hos).start hstart
    obtain ⟨cop, hcop, hcs⟩ := mem_splitIntoTasks hmem
    obtain rfl := (becomes_of_mem hcs).configure hconf
    have htask := (SliceOp.configures_iff.1 hconf).2
    have hlt : c.place < o.place := by
      rw [htask] at hsop
      exact hssa _ _ op' hsop hcop
    -- places come in order, so the configure is not after the start
    rw [hblock] at hmem hsorted
    refine (List.mem_append.1 hmem).resolve_right fun hpost => ?_
    rcases List.mem_cons.1 hpost with rfl | hpost
    · omega
    · have := (List.pairwise_cons.1 (List.pairwise_append.1 hsorted).2.1).1 c hpost
      omega

variable (channel) in
theorem Ordered.initial (hfull : SplitBlock full) : Ordered channel full full
    { block := full, lateTasks := lateTasks full } :=
  ⟨[], [], {
    block := rfl
    kept := ⟨.refl _, fun _ _ => rfl⟩
    late := fun _ hc => (List.mem_filter.1 hc).symm
    notStarted := fun _ _ _ _ ho => absurd ho List.not_mem_nil
    lateNodup := hfull.nodup.filter _
    round := Round.nil rfl rfl rfl }⟩

theorem Ordered.foldl_visit (hfull : SplitBlock full) {calls : ℕ → Option Split}
    {ops : List (SeqOp × ℕ)}
    (h : Ordered channel full ((ops.flatMap fun op => splitOp calls op.2 op.1) ++ rest) s) :
    Ordered channel full rest
      ((ops.flatMap fun op => splitOp calls op.2 op.1).foldl (visit channel) s) := by
  induction ops generalizing s with
  | nil => exact h
  | cons op ops ih =>
    rw [List.flatMap_cons, List.append_assoc] at h
    rw [List.flatMap_cons, List.foldl_append]
    exact ih (h.foldl_splitOp hfull)

variable (channel) in
/-- **The pass keeps what depends on each other in order.** -/
theorem orderSlices_kept {calls : ℕ → Option Split} {block : List SeqOp}
    (hfull : SplitBlock (splitIntoTasks calls block)) :
    Kept channel (splitIntoTasks calls block)
      (orderSlices channel (splitIntoTasks calls block)
        (lateTasks (splitIntoTasks calls block))) := by
  have h : Ordered channel (splitIntoTasks calls block)
      ((block.zipIdx.flatMap fun op => splitOp calls op.2 op.1) ++ [])
      { block := splitIntoTasks calls block, lateTasks := lateTasks (splitIntoTasks calls block) } := by
    rw [List.append_nil]
    exact Ordered.initial channel hfull
  obtain ⟨done, items, h⟩ := h.foldl_visit hfull
  obtain ⟨done', h⟩ := h.flushed hfull
  exact h.kept

theorem Fixed_of_stops {task : TaskRef} (h : Stops channel task o = true) :
    Fixed channel o = true := by
  cases hkind : o.kind <;> simp_all [Stops, Fixed, SliceOp.late]

/-- **Slices are interleaved in order**: only starts and late configures move, those of each channel
stay in order, and no start passes a configure of its task, an await, an effect or a free of its
task. -/
theorem orderSlices_keepsOrder (calls : ℕ → Option Split) (channel : ℕ → Option ChannelKey)
    (block : List SeqOp) (hssa : ∀ (n t : ℕ) (op : DMAStartTask),
      block[n]? = some (SeqOp.start t op) → block[t]? = some SeqOp.configure → t < n) :
    KeepsOrder channel (splitIntoTasks calls block)
      (orderSlices channel (splitIntoTasks calls block)
        (lateTasks (splitIntoTasks calls block))) := by
  have hfull := splitIntoTasks_split calls hssa
  have h := orderSlices_kept channel hfull
  refine ⟨h.perm, h.filter _ fun o o' ho ho' _ => .inl ⟨ho, ho'⟩,
    fun c => h.filter _ fun o o' ho ho' _ => .inr (.inl ⟨c, ho, ho'⟩),
    fun task pre op post hafter hstart ⟨c, hc, hconf⟩ =>
      ⟨c, h.configured hfull hafter hstart hc hconf, hconf⟩,
    fun task s hs => h.filter _ fun o o' ho ho' hne => ?_⟩
  simp only [Bool.or_eq_true, decide_eq_true_eq] at ho ho'
  rcases ho with rfl | ho <;> rcases ho' with rfl | ho'
  · exact absurd rfl hne
  · exact .inr (.inr (.inl ⟨task, hs, .inl ho'⟩))
  · exact .inr (.inr (.inr ⟨task, hs, .inl ho⟩))
  · exact .inl ⟨Fixed_of_stops ho, Fixed_of_stops ho'⟩

def twoTasks : ℕ → Option Split := fun place =>
  if place < 2 then
    some {
      task := { channel := ⟨place, 0, 0, 0⟩, users := [], bd :=
        { offset := .const 0, len := .const 8, sizes := [], strides := [], sameLength := rfl } }
      slices := [⟨[], [4], [1], 0⟩, ⟨[], [4], [1], 4⟩]
      baseFlatOffset := 0
      iterations := 1 }
  else none

/-- Both are started, and the first is awaited. -/
def twoStarts : List SeqOp :=
  [.configure, .configure, .start 0 ⟨.task, true⟩, .start 1 ⟨.count 1, true⟩, .await 0]

theorem twoStarts_keepsOrder :
    KeepsOrder (fun task => some ⟨task, 0, 0, 0⟩) (splitIntoTasks twoTasks twoStarts)
      (orderSlices (fun task => some ⟨task, 0, 0, 0⟩) (splitIntoTasks twoTasks twoStarts)
        (lateTasks (splitIntoTasks twoTasks twoStarts))) := by
  refine orderSlices_keepsOrder twoTasks _ twoStarts fun n t op hn _ => ?_
  rcases n with - | - | - | - | - | n
  · cases hn
  · cases hn
  · obtain ⟨rfl, -⟩ := SeqOp.start.inj (Option.some.inj hn)
    decide
  · obtain ⟨rfl, -⟩ := SeqOp.start.inj (Option.some.inj hn)
    decide
  · cases hn
  · cases hn

end MlirAie.Dma.Slices
