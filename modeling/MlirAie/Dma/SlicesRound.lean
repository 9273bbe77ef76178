import MlirAie.Dma.SlicesWeave

/-!
# The end of a round

The operations of a set in which all depend on each other stay in order: a round moves such a set's
starts of one group only, and what follows the group in the round is not of the set.

* `RoundItem`, `Round`, `SplitBlock`, `Ordering`: the operations of a round, and what is known of them;
* `Ordering.exists_moved`: what a round moves of a set of dependent operations;
* `Ordering.flush_block`, `filter_flush`, **`Ordering.flushed`**: the end of a round.
-/

namespace MlirAie.Dma.Slices

open MlirAie.Lib

variable {channel : ℕ → Option ChannelKey}

/-! ## Rounds -/

/-- An operation of a round, or a start that keeps its place with the others of its group. -/
inductive RoundItem
  | op (o : SliceOp)
  | group (c : ChannelKey) (head : SliceOp) (pending : List Pending)

namespace RoundItem

def ops : RoundItem → List SliceOp
  | .op o => [o]
  | .group _ head pending => head :: pending.map (·.start)

def pending : RoundItem → List Pending
  | .op _ => []
  | .group _ _ pending => pending

def channel? : RoundItem → Option ChannelKey
  | .op _ => none
  | .group c _ _ => some c

def head? : RoundItem → Option SliceOp
  | .op _ => none
  | .group _ head _ => some head

end RoundItem

def Pending.le (a b : Pending) : Bool := !b.less a

theorem Pending.le_iff {a b : Pending} : a.le b = true ↔
    a.index * b.count < b.index * a.count ∨
      (a.index * b.count = b.index * a.count ∧ a.head ≤ b.head) := by
  simp only [Pending.le, Pending.less]
  split_ifs with h
  · simp
    omega
  · rw [ne_eq, not_not] at h
    simp [h]

theorem Pending.le_trans (a b c : Pending) (hab : a.le b = true) (hbc : b.le c = true) :
    a.le c = true := by
  rw [Pending.le_iff] at *
  have ha := a.count_pos
  have hb := b.count_pos
  have hc := c.count_pos
  rcases hab with hab | ⟨hab, hab'⟩ <;> rcases hbc with hbc | ⟨hbc, hbc'⟩
  · left; nlinarith
  · left; nlinarith
  · left; nlinarith
  · right
    refine ⟨?_, hab'.trans hbc'⟩
    nlinarith

theorem Pending.le_total (a b : Pending) : (a.le b || b.le a) = true := by
  rw [Bool.or_eq_true, Pending.le_iff, Pending.le_iff]
  omega

variable (channel) in
def RoundItem.Valid : RoundItem → Prop
  | .op o => ∀ task, o.starts task = false
  | .group c head pending => head.startsOn channel c = true ∧
      (∀ task, head.starts task = true → task.slice = 0) ∧
      (∀ p ∈ pending, p.start.starts p.task = true ∧ channel p.task.task = some c) ∧
      pending.Pairwise fun a b => a.le b = true

variable (channel) in
structure Round (items : List RoundItem) (s : OrderState) : Prop where
  pending : s.pending = items.flatMap RoundItem.pending
  round : ∀ c, c ∈ s.round ↔ c ∈ items.filterMap RoundItem.channel?
  anchor : s.anchor = (items.filterMap RoundItem.head?).getLast?
  channels : (items.filterMap RoundItem.channel?).Nodup
  valid : ∀ i ∈ items, i.Valid channel
  stops : items.Pairwise fun i j => ∀ p ∈ i.pending, ∀ o ∈ j.ops, Stops channel p.task o = false

/-- What is known of a block whose tasks are split: its operations are distinct, and a task is
configured before it is started. -/
structure SplitBlock (full : List SliceOp) : Prop where
  nodup : full.Nodup
  unique : Unique full
  configured : ∀ pre o post task c, full = pre ++ o :: post → o.starts task = true → c ∈ full →
    c.configures task = true → c ∈ pre

theorem SliceOp.not_configures {o : SliceOp} {task task' : TaskRef} (h : o.starts task = true) :
    o.configures task' = false := by
  obtain ⟨r, s, hkind⟩ := SliceOp.starts_iff.1 h
  simp [SliceOp.configures, hkind]

/-- A configure and the starts of its task depend on each other. -/
theorem clique_configures {c : SliceOp} {task : TaskRef} (hc : c.configures task = true) :
    Clique channel fun o => decide (o = c) || o.starts task := by
  intro o o' ho ho' hne
  simp only [Bool.or_eq_true, decide_eq_true_eq] at ho ho'
  rcases ho with rfl | ho <;> rcases ho' with rfl | ho'
  · exact absurd rfl hne
  · exact .inr (.inr (.inr ⟨task, ho', .inr hc⟩))
  · exact .inr (.inr (.inl ⟨task, ho, .inr hc⟩))
  · obtain ⟨r, s, hkind⟩ := SliceOp.starts_iff.1 ho
    obtain ⟨r', s', hkind'⟩ := SliceOp.starts_iff.1 ho'
    cases hch : channel task.task with
    | none => exact .inl ⟨by simp [Fixed, hkind, hch], by simp [Fixed, hkind', hch]⟩
    | some c' => exact .inr (.inl ⟨c', SliceOp.startsOn_iff.2 ⟨task, ho, hch⟩,
        SliceOp.startsOn_iff.2 ⟨task, ho', hch⟩⟩)

/-- A block that keeps what depends on each other in order configures before it starts. -/
theorem Kept.configured {full block : List SliceOp} (hfull : SplitBlock full)
    (h : Kept channel full block) {pre post : List SliceOp} {o c : SliceOp} {task : TaskRef}
    (hblock : block = pre ++ o :: post) (ho : o.starts task = true) (hc : c ∈ full)
    (hconf : c.configures task = true) : c ∈ pre := by
  obtain ⟨l₁, l₂, hl⟩ := List.append_of_mem hc
  have hfirst : l₁.filter (fun o => decide (o = c) || o.starts task) = [] := by
    refine List.filter_eq_nil_iff.2 fun x hx hS => ?_
    rw [Bool.or_eq_true, decide_eq_true_eq] at hS
    have hnodup := hl ▸ hfull.nodup
    rcases hS with rfl | hS
    · exact List.disjoint_of_nodup_append hnodup hx List.mem_cons_self
    · obtain ⟨m₁, m₂, hm⟩ := List.append_of_mem hx
      have := hfull.configured m₁ x (m₂ ++ c :: l₂) task c (by rw [hl, hm]; simp) hS hc hconf
      exact List.disjoint_of_nodup_append hnodup (hm ▸ List.mem_append_left _ this)
        List.mem_cons_self
  have hoc : (decide (o = c) || o.starts task) = true := by simp [ho]
  have hcc : (decide (c = c) || c.starts task) = true := by simp
  have hfilter := h.filter _ (clique_configures hconf)
  rw [hblock, hl, List.filter_append, List.filter_append, hfirst, List.nil_append,
    List.filter_cons, if_pos hoc, List.filter_cons, if_pos hcc] at hfilter
  cases hpre : pre.filter (fun o => decide (o = c) || o.starts task) with
  | nil =>
    rw [hpre, List.nil_append] at hfilter
    rw [← (List.cons.inj hfilter).1, SliceOp.not_configures ho] at hconf
    cases hconf
  | cons x l =>
    rw [hpre, List.cons_append] at hfilter
    rw [← (List.cons.inj hfilter).1]
    exact List.mem_of_mem_filter (hpre ▸ List.mem_cons_self)

variable (channel) in
/-- What holds while a block is ordered: the operations of the round are where they were, and no task
that is still configured late has been started before. -/
structure Ordering (full rest : List SliceOp) (s : OrderState) (done : List SliceOp)
    (items : List RoundItem) : Prop where
  block : s.block = done ++ (items.flatMap RoundItem.ops ++ rest)
  kept : Kept channel full s.block
  late : ∀ c ∈ s.lateTasks, c.late = true ∧ c ∈ full
  notStarted : ∀ c ∈ s.lateTasks, (channel c.place).isSome → ∀ o ∈ done,
    o.starts ⟨c.place, c.number⟩ = false
  lateNodup : s.lateTasks.Nodup
  round : Round channel items s

variable {full rest done : List SliceOp} {s : OrderState} {items : List RoundItem}

theorem Ordering.nodup (hfull : SplitBlock full) (h : Ordering channel full rest s done items) :
    s.block.Nodup := h.kept.perm.nodup_iff.2 hfull.nodup

theorem Ordering.unique (hfull : SplitBlock full) (h : Ordering channel full rest s done items) :
    Unique s.lateTasks := fun c hc c' hc' =>
  hfull.unique c (h.late c hc).2 c' (h.late c' hc').2

theorem Ordering.exists_group (h : Ordering channel full rest s done items) {p : Pending}
    (hp : p ∈ s.pending) : ∃ I₁ c head pending I₂,
      items = I₁ ++ .group c head pending :: I₂ ∧ p ∈ pending := by
  rw [h.round.pending, List.mem_flatMap] at hp
  obtain ⟨i, hi, hp⟩ := hp
  obtain ⟨I₁, I₂, rfl⟩ := List.append_of_mem hi
  cases i with
  | op o => cases hp
  | group c head pending => exact ⟨I₁, c, head, pending, I₂, rfl, hp⟩

theorem Ordering.starts_of_mem (h : Ordering channel full rest s done items) {p : Pending}
    (hp : p ∈ s.pending) : p.start.starts p.task = true := by
  obtain ⟨I₁, c, head, pending, I₂, rfl, hp⟩ := h.exists_group hp
  exact ((h.round.valid _ (List.mem_append_right _ List.mem_cons_self)).2.2.1 p hp).1

theorem mem_ops_of_mem_pending {i : RoundItem} {p : Pending} (h : p ∈ i.pending) :
    p.start ∈ i.ops := by
  cases i with
  | op o => cases h
  | group c head pending => exact List.mem_cons_of_mem _ (List.mem_map_of_mem h)

theorem map_start_sublist (items : List RoundItem) :
    ((items.flatMap RoundItem.pending).map (·.start)).Sublist (items.flatMap RoundItem.ops) := by
  induction items with
  | nil => exact .refl _
  | cons i items ih =>
    rw [List.flatMap_cons, List.flatMap_cons, List.map_append]
    refine List.Sublist.append ?_ ih
    cases i with
    | op o => exact List.nil_sublist _
    | group c head pending => exact List.sublist_cons_self _ _

theorem Ordering.apart (hfull : SplitBlock full) (h : Ordering channel full rest s done items) :
    Apart s.lateTasks (s.pending.mergeSort Pending.le) where
  configures := h.lateNodup
  starts := by
    rw [((List.mergeSort_perm s.pending Pending.le).map _).nodup_iff, h.round.pending]
    have hnodup := h.block ▸ h.nodup hfull
    exact (map_start_sublist items).nodup
      (List.nodup_append.1 (List.nodup_append.1 hnodup).2.1).1
  apart := fun p hp hmem => by
    obtain ⟨I₁, c, head, pending, I₂, rfl, hp⟩ := h.exists_group (List.mem_mergeSort.1 hp)
    obtain ⟨-, -, hstart, -⟩ := h.round.valid _ (List.mem_append_right _ List.mem_cons_self)
    have := SliceOp.not_startsOn_of_late channel (h.late _ hmem).1 c
    rw [SliceOp.startsOn_iff.2 ⟨_, hstart p hp⟩] at this
    cases this

def OrderState.moved (s : OrderState) : List SliceOp :=
  weave s.lateTasks (s.pending.mergeSort Pending.le)

theorem RoundItem.channel?_of_mem_ops {i : RoundItem} (hi : i.Valid channel) {o : SliceOp}
    (ho : o ∈ i.ops) {c : ChannelKey} (hc : o.startsOn channel c = true) :
    i.channel? = some c := by
  obtain ⟨task, htask, hch⟩ := SliceOp.startsOn_iff.1 hc
  cases i with
  | op o' =>
    obtain rfl := List.mem_singleton.1 ho
    have := hi task
    rw [htask] at this
    cases this
  | group c' head pending =>
    obtain ⟨hhead, -, hstart, -⟩ := hi
    rcases List.mem_cons.1 ho with rfl | ho
    · obtain ⟨task', htask', hch'⟩ := SliceOp.startsOn_iff.1 hhead
      rw [SliceOp.starts_unique htask htask', hch'] at hch
      exact hch
    · obtain ⟨p, hp, rfl⟩ := List.mem_map.1 ho
      rw [SliceOp.starts_unique htask (hstart p hp).1, (hstart p hp).2] at hch
      exact hch

section Moved

variable {S : SliceOp → Bool} {I₁ I₂ : List RoundItem} {c : ChannelKey} {head : SliceOp}
  {pending : List Pending} {p₀ : Pending}

variable (channel) in
/-- Operations of a set that depends on a start are starts on its channel, stop it, or configure its
task. -/
def Around (c : ChannelKey) (task : TaskRef) (S : SliceOp → Bool) : Prop :=
  ∀ o, S o = true →
    o.startsOn channel c = true ∨ Stops channel task o = true ∨ o.configures task = true

theorem Ordering.not_startsOn (h : Ordering channel full rest s done items)
    (hitems : items = I₁ ++ .group c head pending :: I₂) {o : SliceOp}
    (ho : o ∈ I₁.flatMap RoundItem.ops ∨ o ∈ I₂.flatMap RoundItem.ops) :
    o.startsOn channel c = false := by
  refine Bool.eq_false_iff.2 fun hc => ?_
  have hchannels : (I₁.filterMap RoundItem.channel? ++
      c :: I₂.filterMap RoundItem.channel?).Nodup := by
    have := h.round.channels
    rwa [hitems, List.filterMap_append] at this
  have hvalid : ∀ i ∈ I₁ ++ .group c head pending :: I₂, i.Valid channel := hitems ▸ h.round.valid
  have hnot := (List.nodup_middle.1 hchannels).notMem
  refine hnot (List.mem_append.2 (ho.imp (fun ho => ?_) fun ho => ?_))
  all_goals
    obtain ⟨i, hi, ho⟩ := List.mem_flatMap.1 ho
    refine List.mem_filterMap.2 ⟨i, hi, RoundItem.channel?_of_mem_ops (hvalid i ?_) ho hc⟩
    simp [hi]

theorem Ordering.block_group (h : Ordering channel full rest s done items)
    (hitems : items = I₁ ++ .group c head pending :: I₂) :
    s.block = (done ++ I₁.flatMap RoundItem.ops ++ [head]) ++
      (pending.map (·.start) ++ (I₂.flatMap RoundItem.ops ++ rest)) := by
  rw [h.block, hitems]
  simp [RoundItem.ops]

theorem Ordering.not_after (hfull : SplitBlock full) (h : Ordering channel full rest s done items)
    (hitems : items = I₁ ++ .group c head pending :: I₂) (hp : p₀ ∈ pending)
    (hS : Around channel c p₀.task S) : ∀ o ∈ I₂.flatMap RoundItem.ops, S o = false := by
  intro o ho
  refine Bool.eq_false_iff.2 fun hSo => ?_
  obtain ⟨-, -, hstart, -⟩ := h.round.valid (.group c head pending) (by simp [hitems])
  rcases hS o hSo with hc | hstop | hconf
  · rw [h.not_startsOn hitems (.inr ho)] at hc
    cases hc
  · obtain ⟨i, hi, ho⟩ := List.mem_flatMap.1 ho
    have hstops := h.round.stops
    rw [hitems] at hstops
    have := (List.pairwise_cons.1 (List.pairwise_append.1 hstops).2.1).1 i hi p₀ hp o ho
    rw [this] at hstop
    cases hstop
  · obtain ⟨m₁, m₂, rfl⟩ := List.append_of_mem hp
    have hblock : s.block = (done ++ I₁.flatMap RoundItem.ops ++ [head] ++ m₁.map (·.start)) ++
        p₀.start :: (m₂.map (·.start) ++ (I₂.flatMap RoundItem.ops ++ rest)) := by
      rw [h.block_group hitems]
      simp
    have hpost : o ∈ p₀.start :: (m₂.map (·.start) ++ (I₂.flatMap RoundItem.ops ++ rest)) := by
      simp only [List.mem_cons, List.mem_append]
      exact .inr (.inr (.inl ho))
    have hmem : o ∈ full := h.kept.perm.subset (hblock ▸ List.mem_append_right _ hpost)
    have hpre := h.kept.configured hfull hblock (hstart p₀ (by simp)).1 hmem hconf
    exact List.disjoint_of_nodup_append (hblock ▸ h.nodup hfull) hpre hpost

theorem Ordering.not_pending (h : Ordering channel full rest s done items)
    (hitems : items = I₁ ++ .group c head pending :: I₂) {p : Pending}
    (hp : p ∈ I₁.flatMap RoundItem.pending ∨ p ∈ I₂.flatMap RoundItem.pending)
    (hS : Around channel c p₀.task S) : S p.start = false := by
  refine Bool.eq_false_iff.2 fun hSp => ?_
  have hops : p.start ∈ I₁.flatMap RoundItem.ops ∨ p.start ∈ I₂.flatMap RoundItem.ops := by
    refine hp.imp (fun hp => ?_) fun hp => ?_
    all_goals
      obtain ⟨i, hi, hp⟩ := List.mem_flatMap.1 hp
      exact List.mem_flatMap.2 ⟨i, hi, mem_ops_of_mem_pending hp⟩
  have hmem : p ∈ s.pending := by
    rw [h.round.pending, hitems, List.flatMap_append, List.flatMap_cons]
    simp only [List.mem_append]
    exact hp.imp_right .inr
  obtain ⟨J₁, c', head', pending', J₂, hitems', hp'⟩ := h.exists_group hmem
  obtain ⟨-, -, hstart, -⟩ := h.round.valid (.group c' head' pending') (by simp [hitems'])
  rcases hS _ hSp with hc | hstop | hconf
  · rw [h.not_startsOn hitems hops] at hc
    cases hc
  · obtain ⟨r, t, hkind⟩ := SliceOp.starts_iff.1 (hstart p hp').1
    simp [Stops, hkind, (hstart p hp').2] at hstop
  · rw [SliceOp.not_configures (hstart p hp').1] at hconf
    cases hconf

theorem Ordering.filter_starts (h : Ordering channel full rest s done items)
    (hitems : items = I₁ ++ .group c head pending :: I₂) (hS : Around channel c p₀.task S) :
    ((s.pending.mergeSort Pending.le).map (·.start)).filter S =
      (pending.map (·.start)).filter S := by
  obtain ⟨-, -, -, hsorted⟩ := h.round.valid (.group c head pending) (by simp [hitems])
  have hpending : s.pending.filter (S ∘ (·.start)) = pending.filter (S ∘ (·.start)) := by
    rw [h.round.pending, hitems, List.flatMap_append, List.flatMap_cons, List.filter_append,
      List.filter_append]
    have hnil : ∀ I : List RoundItem, (I = I₁ ∨ I = I₂) →
        (I.flatMap RoundItem.pending).filter (S ∘ (·.start)) = [] := fun I hI => by
      refine List.filter_eq_nil_iff.2 fun p hp => ?_
      have hin : p ∈ I₁.flatMap RoundItem.pending ∨ p ∈ I₂.flatMap RoundItem.pending := by
        rcases hI with rfl | rfl
        exacts [.inl hp, .inr hp]
      simp [h.not_pending hitems hin hS]
    rw [hnil I₁ (.inl rfl), hnil I₂ (.inr rfl)]
    simp [RoundItem.pending]
  rw [List.filter_map, List.filter_map, filter_mergeSort Pending.le_trans Pending.le_total,
    hpending]
  rw [hpending]
  exact hsorted.filter _

/-- A configure that is late is before the starts of its task, and the only one of a set before
them. -/
theorem Ordering.filter_late (hfull : SplitBlock full) (h : Ordering channel full rest s done items)
    (hitems : items = I₁ ++ .group c head pending :: I₂) (hp : p₀ ∈ pending) {o : SliceOp}
    (ho : o ∈ s.lateTasks) (hconf : o.configures p₀.task = true) (hSo : S o = true)
    (hother : ∀ o', S o' = true → o' = o ∨ o'.starts p₀.task = true) :
    (done ++ I₁.flatMap RoundItem.ops ++ [head]).filter S = [o] := by
  obtain ⟨hhead, hslice, hstart, -⟩ := h.round.valid (.group c head pending) (by simp [hitems])
  obtain ⟨hol, hofull⟩ := h.late o ho
  have htask : p₀.task = ⟨o.place, o.number⟩ := (SliceOp.configures_iff.1 hconf).2
  have hblock := h.block_group hitems
  have hnodup := List.Nodup.of_append_left (hblock ▸ h.nodup hfull)
  have honly : ∀ o' ∈ done ++ I₁.flatMap RoundItem.ops ++ [head], S o' = true → o' = o := by
    intro o' ho' hSo'
    refine (hother o' hSo').resolve_right fun hs => ?_
    have hch : channel o.place = some c := by
      have := (hstart p₀ hp).2
      rwa [htask] at this
    rcases List.mem_append.1 ho' with ho' | ho'
    rcases List.mem_append.1 ho' with ho' | ho'
    · have := h.notStarted o ho (by rw [hch]; rfl) o' ho'
      rw [← htask, hs] at this
      cases this
    · have := h.not_startsOn hitems (.inl ho')
      rw [SliceOp.startsOn_iff.2 ⟨_, hs, (hstart p₀ hp).2⟩] at this
      cases this
    · obtain rfl := List.mem_singleton.1 ho'
      have hzero := hslice _ hs
      have hpos := (SliceOp.late_iff.1 hol).2
      rw [htask] at hzero
      simp only at hzero
      omega
  have hmem : o ∈ done ++ I₁.flatMap RoundItem.ops ++ [head] := by
    obtain ⟨m₁, m₂, rfl⟩ := List.append_of_mem hp
    have hsplit : s.block = (done ++ I₁.flatMap RoundItem.ops ++ [head] ++ m₁.map (·.start)) ++
        p₀.start :: (m₂.map (·.start) ++ (I₂.flatMap RoundItem.ops ++ rest)) := by
      rw [hblock]
      simp
    have hpre := h.kept.configured hfull hsplit (hstart p₀ (by simp)).1 hofull hconf
    refine (List.mem_append.1 hpre).resolve_right fun hm => ?_
    obtain ⟨q, hq, rfl⟩ := List.mem_map.1 hm
    rw [SliceOp.not_configures (hstart q (by simp [hq])).1] at hconf
    cases hconf
  have hfilter : (done ++ I₁.flatMap RoundItem.ops ++ [head]).filter S =
      (done ++ I₁.flatMap RoundItem.ops ++ [head]).filter (· == o) :=
    List.filter_congr fun o' ho' => by
      by_cases heq : o' = o
      · simp [heq, hSo]
      · rw [beq_false_of_ne heq]
        exact Bool.eq_false_iff.2 fun hSo' => heq (honly o' ho' hSo')
  rw [hfilter, List.filter_beq, List.count_eq_one_of_mem hnodup hmem]
  rfl

/-- **The sets of dependent operations a round moves**: those of a group, after which the round has
none of the set. -/
theorem Ordering.exists_moved (hfull : SplitBlock full)
    (h : Ordering channel full rest s done items) (hS : Clique channel S)
    {x : SliceOp} (hx : x ∈ s.moved) (hSx : S x = true) :
    ∃ I₁ c head pending I₂, items = I₁ ++ .group c head pending :: I₂ ∧
      (∀ o ∈ I₂.flatMap RoundItem.ops, S o = false) ∧
      (done ++ I₁.flatMap RoundItem.ops ++ [head]).filter S ++
          (pending.map (·.start)).filter S =
        (done ++ I₁.flatMap RoundItem.ops ++ [head]).filter (fun o => S o && decide (o ∉ s.moved)) ++
          s.moved.filter S := by
  by_cases hlate : ∃ c ∈ s.lateTasks, S c = true ∧ ∃ p ∈ s.pending, c.configures p.task = true
  · -- a late configure, and the starts of its task
    obtain ⟨o, ho, hSo, p, hp, hconf⟩ := hlate
    obtain ⟨I₁, c, head, pending, I₂, hitems, hp'⟩ := h.exists_group hp
    obtain ⟨hhead, hslice, hstart, -⟩ := h.round.valid (.group c head pending) (by simp [hitems])
    obtain ⟨hol, hofull⟩ := h.late o ho
    have htask : p.task = ⟨o.place, o.number⟩ := (SliceOp.configures_iff.1 hconf).2
    have hother : ∀ o', S o' = true → o' = o ∨ o'.starts p.task = true := fun o' ho' => by
      rw [htask]
      exact or_iff_not_imp_left.2 fun hne => (hS o o' hSo ho' (Ne.symm hne)).of_late hol
    have haround : Around channel c p.task S := fun o' ho' =>
      (hother o' ho').elim (fun heq => .inr (.inr (heq ▸ hconf))) fun hs =>
        .inl (SliceOp.startsOn_iff.2 ⟨_, hs, (hstart p hp').2⟩)
    refine ⟨I₁, c, head, pending, I₂, hitems, h.not_after hfull hitems hp' haround, ?_⟩
    have hmoved : s.moved.filter S = o :: (pending.map (·.start)).filter S := by
      rw [← h.filter_starts hitems haround]
      refine filter_weave_late h.lateNodup (h.unique hfull) ho hSo (fun o' ho' hSo' => ?_)
        (fun q hq hSq => ?_) ⟨p, List.mem_mergeSort.2 hp, hconf⟩
      · refine (hother o' hSo').resolve_right fun hs => ?_
        rw [SliceOp.not_starts_of_late (h.late o' ho').1] at hs
        cases hs
      · have hq' := h.starts_of_mem (List.mem_mergeSort.1 hq)
        rcases hother _ hSq with heq | hs
        · rw [← heq, SliceOp.not_configures hq'] at hconf
          cases hconf
        · rw [SliceOp.starts_unique hq' hs]
          exact hconf
    have hA := h.filter_late hfull hitems hp' ho hconf hSo hother
    have hnil : (done ++ I₁.flatMap RoundItem.ops ++ [head]).filter
        (fun o' => S o' && decide (o' ∉ s.moved)) = [] := by
      refine List.filter_eq_nil_iff.2 fun o' ho' hSo' => ?_
      rw [Bool.and_eq_true, decide_eq_true_eq] at hSo'
      have hmem : o' ∈ [o] := hA ▸ List.mem_filter.2 ⟨ho', hSo'.1⟩
      obtain rfl := List.mem_singleton.1 hmem
      exact hSo'.2 (List.mem_of_mem_filter (hmoved ▸ List.mem_cons_self))
    rw [hmoved, hA, hnil]
    rfl
  · obtain ⟨p, hp, rfl⟩ : ∃ p ∈ s.pending, x = p.start := by
      rcases mem_weave hx with ⟨p, hp, hxp⟩ | ⟨hxl, p, hp, hconf⟩
      · exact ⟨p, List.mem_mergeSort.1 hp, hxp⟩
      · exact absurd ⟨x, hxl, hSx, p, List.mem_mergeSort.1 hp, hconf⟩ hlate
    obtain ⟨I₁, c, head, pending, I₂, hitems, hp'⟩ := h.exists_group hp
    obtain ⟨hhead, hslice, hstart, -⟩ := h.round.valid (.group c head pending) (by simp [hitems])
    have haround : Around channel c p.task S := fun o' ho' => by
      by_cases heq : o' = p.start
      · exact .inl (SliceOp.startsOn_iff.2 ⟨_, heq ▸ (hstart p hp').1, (hstart p hp').2⟩)
      · exact (hS p.start o' hSx ho' (Ne.symm heq)).of_starts (hstart p hp').1 (hstart p hp').2
    refine ⟨I₁, c, head, pending, I₂, hitems, h.not_after hfull hitems hp' haround, ?_⟩
    have hmoved : s.moved.filter S = (pending.map (·.start)).filter S := by
      rw [OrderState.moved, filter_weave, h.filter_starts hitems haround]
      rintro c hc ⟨q, hq, hconf⟩
      exact Bool.eq_false_iff.2 fun hSc =>
        hlate ⟨c, hc, hSc, q, List.mem_mergeSort.1 hq, hconf⟩
    rw [hmoved]
    refine congrArg (· ++ _) (List.filter_congr fun o ho => ?_)
    cases hSo : S o with
    | false => rfl
    | true =>
      rw [Bool.true_and, eq_comm, decide_eq_true_eq]
      intro hm
      rcases mem_weave hm with ⟨q, hq, rfl⟩ | ⟨hol, q, hq, hconf⟩
      · rw [List.mem_mergeSort, h.round.pending, hitems, List.flatMap_append,
          List.flatMap_cons, List.mem_append, List.mem_append] at hq
        by_cases hin : q ∈ pending
        · exact List.disjoint_of_nodup_append (h.block_group hitems ▸ h.nodup hfull) ho
            (List.mem_append_left _ (List.mem_map_of_mem hin))
        · have hnot := h.not_pending hitems (p := q) (by tauto) haround
          rw [hSo] at hnot
          cases hnot
      · exact hlate ⟨o, hol, hSo, q, List.mem_mergeSort.1 hq, hconf⟩

end Moved

theorem Ordering.mem_of_mem_moved (hfull : SplitBlock full)
    (h : Ordering channel full rest s done items) {x : SliceOp} (hx : x ∈ s.moved) :
    x ∈ done ++ items.flatMap RoundItem.ops := by
  rcases mem_weave hx with ⟨p, hp, rfl⟩ | ⟨hxl, p, hp, hconf⟩
  · rw [List.mem_mergeSort, h.round.pending] at hp
    obtain ⟨i, hi, hp⟩ := List.mem_flatMap.1 hp
    exact List.mem_append_right _ (List.mem_flatMap.2 ⟨i, hi, mem_ops_of_mem_pending hp⟩)
  · rw [List.mem_mergeSort] at hp
    have hstart := h.starts_of_mem hp
    rw [h.round.pending] at hp
    obtain ⟨i, hi, hp⟩ := List.mem_flatMap.1 hp
    obtain ⟨m₁, m₂, hm⟩ := List.append_of_mem
      (List.mem_flatMap.2 ⟨i, hi, mem_ops_of_mem_pending hp⟩)
    have hsplit : s.block = (done ++ m₁) ++ p.start :: (m₂ ++ rest) := by
      rw [h.block, hm]
      simp
    have := h.kept.configured hfull hsplit hstart (h.late x hxl).2 hconf
    rw [hm, ← List.append_assoc]
    exact List.mem_append_left _ this

/-- A round whose last start is known. -/
theorem exists_anchor {items : List RoundItem} {a : SliceOp}
    (h : (items.filterMap RoundItem.head?).getLast? = some a) : ∃ J₁ c pending J₂,
      items = J₁ ++ .group c a pending :: J₂ ∧ J₂.filterMap RoundItem.head? = [] := by
  induction items with
  | nil => cases h
  | cons i items ih =>
    by_cases hnil : items.filterMap RoundItem.head? = []
    · cases i with
      | op o =>
        rw [List.filterMap_cons_none rfl, hnil] at h
        cases h
      | group c head pending =>
        change (head :: items.filterMap RoundItem.head?).getLast? = some a at h
        rw [hnil] at h
        obtain rfl := Option.some.inj h
        exact ⟨[], c, pending, items, rfl, hnil⟩
    · have htail : (items.filterMap RoundItem.head?).getLast? = some a := by
        cases i with
        | op o => rwa [List.filterMap_cons_none rfl] at h
        | group c head pending =>
          change (head :: items.filterMap RoundItem.head?).getLast? = some a at h
          rwa [List.getLast?_cons_of_ne_nil hnil] at h
      obtain ⟨J₁, c, pending, J₂, rfl, hJ⟩ := ih htail
      exact ⟨i :: J₁, c, pending, J₂, rfl, hJ⟩

theorem no_heads {items : List RoundItem} (h : items.filterMap RoundItem.head? = []) :
    items.flatMap RoundItem.pending = [] ∧ ∀ i ∈ items, ∃ o, i = .op o := by
  induction items with
  | nil => exact ⟨rfl, fun i hi => absurd hi List.not_mem_nil⟩
  | cons i items ih =>
    cases i with
    | op o =>
      obtain ⟨hp, hops⟩ := ih h
      refine ⟨hp, fun i hi => ?_⟩
      rcases List.mem_cons.1 hi with rfl | hi
      exacts [⟨o, rfl⟩, hops i hi]
    | group c head pending => cases h

section Flush

variable {J₁ J₂ : List RoundItem} {c₀ : ChannelKey} {a : SliceOp} {pending₀ : List Pending}

theorem Ordering.anchor_not_mem (hfull : SplitBlock full)
    (h : Ordering channel full rest s done items)
    (hitems : items = J₁ ++ .group c₀ a pending₀ :: J₂) : a ∉ s.moved := by
  obtain ⟨hhead, -⟩ := h.round.valid (.group c₀ a pending₀) (by simp [hitems])
  intro hmem
  rcases mem_weave hmem with ⟨p, hp, rfl⟩ | ⟨hlate, -⟩
  · rw [List.mem_mergeSort, h.round.pending, hitems, List.flatMap_append, List.flatMap_cons,
      List.mem_append, List.mem_append] at hp
    have hnodup := h.block_group hitems ▸ h.nodup hfull
    have hops : ∀ I : List RoundItem, p ∈ I.flatMap RoundItem.pending →
        p.start ∈ I.flatMap RoundItem.ops := fun I hp => by
      obtain ⟨i, hi, hp⟩ := List.mem_flatMap.1 hp
      exact List.mem_flatMap.2 ⟨i, hi, mem_ops_of_mem_pending hp⟩
    rcases hp with hp | hp | hp
    · exact List.disjoint_of_nodup_append (List.Nodup.of_append_left hnodup)
        (List.mem_append_right _ (hops _ hp)) (List.mem_singleton_self _)
    · exact List.disjoint_of_nodup_append hnodup (List.mem_append_right _ (List.mem_singleton_self _))
        (List.mem_append_left _ (List.mem_map_of_mem hp))
    · exact List.disjoint_of_nodup_append hnodup (List.mem_append_right _ (List.mem_singleton_self _))
        (List.mem_append_right _ (List.mem_append_left _ (hops _ hp)))
  · have := SliceOp.not_startsOn_of_late channel (h.late a hlate).1 c₀
    rw [hhead] at this
    cases this

/-- **The block after a round**: what is moved is behind the round's last start. -/
theorem Ordering.flush_block (hfull : SplitBlock full)
    (h : Ordering channel full rest s done items)
    (hitems : items = J₁ ++ .group c₀ a pending₀ :: J₂) (ha : s.anchor = some a) :
    (flush s).block = (done ++ J₁.flatMap RoundItem.ops).filter (· ∉ s.moved) ++
        a :: (s.moved ++ (pending₀.map (·.start) ++ J₂.flatMap RoundItem.ops).filter
          (· ∉ s.moved)) ++ rest ∧
      (flush s).block.Perm s.block := by
  have hnodup := h.nodup hfull
  have hblock : s.block = (done ++ J₁.flatMap RoundItem.ops) ++
      a :: (pending₀.map (·.start) ++ (J₂.flatMap RoundItem.ops ++ rest)) := by
    rw [h.block_group hitems]
    simp
  have hnotmem := h.anchor_not_mem hfull hitems
  have hmoved : (a :: s.moved).Nodup :=
    List.nodup_cons.2 ⟨hnotmem, (h.apart hfull).nodup_weave⟩
  have hmid := List.nodup_middle.1 (hblock ▸ hnodup)
  have hside := (List.nodup_cons.1 hmid).1
  rw [List.mem_append, not_or] at hside
  have hlate : a ∉ s.lateTasks := fun hl => by
    obtain ⟨hhead, -⟩ := h.round.valid (.group c₀ a pending₀) (by simp [hitems])
    have := SliceOp.not_startsOn_of_late channel (h.late a hl).1 c₀
    rw [hhead] at this
    cases this
  have hflush : (flush s).block = gather a s.block s.moved := by
    rw [flush, ha, hblock]
    exact place_append (h.apart hfull) hside.1 hside.2 hlate fun p hp heq =>
      hnotmem (heq ▸ start_mem_weave hp)
  have hrest : rest.filter (· ∉ s.moved) = rest := by
    refine List.filter_eq_self.2 fun o ho => decide_eq_true fun hm => ?_
    have := h.block ▸ hnodup
    rw [← List.append_assoc] at this
    exact List.disjoint_of_nodup_append this (h.mem_of_mem_moved hfull hm) ho
  have hgather := gather_append hside.1 hside.2 hmoved
  rw [hflush, hblock]
  refine ⟨?_, ?_⟩
  · rw [hgather, ← List.append_assoc (pending₀.map _), List.filter_append _ rest, hrest]
    simp
  · rw [hgather]
    refine gather_perm (hblock ▸ hnodup) hmoved fun x hx => ?_
    have hxb : x ∈ s.block := by
      rw [h.block, ← List.append_assoc]
      exact List.mem_append_left _ (h.mem_of_mem_moved hfull hx)
    rw [hblock, List.mem_append, List.mem_cons] at hxb
    rw [List.mem_append]
    rcases hxb with hx' | rfl | hx'
    exacts [.inl hx', absurd hx hnotmem, .inr hx']

/-- A group of which a set is moved is the round's last, or before it. -/
theorem group_before {I₁ I₂ : List RoundItem} {c : ChannelKey} {head : SliceOp}
    {pending : List Pending} (hJ : J₂.filterMap RoundItem.head? = [])
    (heq : J₁ ++ .group c₀ a pending₀ :: J₂ = I₁ ++ .group c head pending :: I₂) :
    (I₁ = J₁ ∧ head = a ∧ pending = pending₀ ∧ I₂ = J₂) ∨
      ∃ t, J₁ = I₁ ++ .group c head pending :: t ∧ I₂ = t ++ .group c₀ a pending₀ :: J₂ := by
  rcases List.append_eq_append_iff.1 heq with ⟨t, rfl, ht⟩ | ⟨t, rfl, ht⟩
  · cases t with
    | nil =>
      obtain ⟨hg, rfl⟩ := List.cons.inj ht
      obtain ⟨-, rfl, rfl⟩ := RoundItem.group.inj hg
      exact .inl ⟨List.append_nil _, rfl, rfl, rfl⟩
    | cons i t =>
      obtain ⟨rfl, rfl⟩ := List.cons.inj ht
      obtain ⟨o, ho⟩ := (no_heads hJ).2 (.group c head pending) (by simp)
      cases ho
  · cases t with
    | nil =>
      obtain ⟨hg, rfl⟩ := List.cons.inj ht
      obtain ⟨-, rfl, rfl⟩ := RoundItem.group.inj hg
      exact .inl ⟨(List.append_nil _).symm, rfl, rfl, rfl⟩
    | cons i t =>
      obtain ⟨rfl, rfl⟩ := List.cons.inj ht
      exact .inr ⟨t, rfl, rfl⟩

theorem Ordering.pending_mem_moved (h : Ordering channel full rest s done items)
    (hitems : items = J₁ ++ .group c₀ a pending₀ :: J₂) :
    ∀ o ∈ pending₀.map (·.start), o ∈ s.moved := by
  intro o ho
  obtain ⟨p, hp, rfl⟩ := List.mem_map.1 ho
  refine start_mem_weave (List.mem_mergeSort.2 ?_)
  rw [h.round.pending, hitems, List.flatMap_append, List.flatMap_cons]
  exact List.mem_append_right _ (List.mem_append_left _ hp)

theorem Ordering.filter_flush (hfull : SplitBlock full)
    (h : Ordering channel full rest s done items)
    (hitems : items = J₁ ++ .group c₀ a pending₀ :: J₂) (hJ : J₂.filterMap RoundItem.head? = [])
    (ha : s.anchor = some a) {S : SliceOp → Bool} (hS : Clique channel S) :
    (flush s).block.filter S = s.block.filter S := by
  have hanchor := h.anchor_not_mem hfull hitems
  rw [(h.flush_block hfull hitems ha).1]
  by_cases hx : ∃ x ∈ s.moved, S x = true
  · obtain ⟨x, hx, hSx⟩ := hx
    obtain ⟨I₁, c, head, pending, I₂, hitems', hafter, heq⟩ := h.exists_moved hfull hS hx hSx
    have hI₂ : (I₂.flatMap RoundItem.ops).filter S = [] :=
      List.filter_eq_nil_iff.2 fun o ho => by simp [hafter o ho]
    have hblock : s.block.filter S = (done ++ I₁.flatMap RoundItem.ops ++ [head]).filter
        (fun o => S o && decide (o ∉ s.moved)) ++ s.moved.filter S ++ rest.filter S := by
      rw [h.block_group hitems', List.filter_append, List.filter_append (pending.map _),
        List.filter_append _ rest, hI₂, List.nil_append, ← List.append_assoc, heq]
    have hgone : ∀ l : List SliceOp, (∀ o ∈ l, o ∈ s.moved ∨ S o = false) →
        l.filter (fun o => S o && decide (o ∉ s.moved)) = [] := fun l hl =>
      List.filter_eq_nil_iff.2 fun o ho => by rcases hl o ho with h | h <;> simp [h]
    have hfilter : (done ++ J₁.flatMap RoundItem.ops ++ [a]).filter
          (fun o => S o && decide (o ∉ s.moved)) =
        (done ++ I₁.flatMap RoundItem.ops ++ [head]).filter
          (fun o => S o && decide (o ∉ s.moved)) ∧
        (pending₀.map (·.start) ++ J₂.flatMap RoundItem.ops).filter
          (fun o => S o && decide (o ∉ s.moved)) = [] := by
      rcases group_before hJ (hitems.symm.trans hitems') with ⟨rfl, rfl, rfl, rfl⟩ | ⟨t, rfl, rfl⟩
      · refine ⟨rfl, hgone _ fun o ho => ?_⟩
        rcases List.mem_append.1 ho with ho | ho
        exacts [.inl (h.pending_mem_moved hitems o ho), .inr (hafter o ho)]
      · have hlast : ∀ o ∈ a :: (pending₀.map (·.start) ++ J₂.flatMap RoundItem.ops),
            S o = false := fun o ho => hafter o (by
          rw [List.flatMap_append, List.flatMap_cons]
          exact List.mem_append_right _ ho)
        refine ⟨?_, hgone _ fun o ho => .inr (hlast o (List.mem_cons_of_mem _ ho))⟩
        have hbetween := hgone (pending.map (·.start) ++ t.flatMap RoundItem.ops ++ [a])
          fun o ho => by
            rcases List.mem_append.1 ho with ho | ho
            rcases List.mem_append.1 ho with ho | ho
            · exact .inl (h.pending_mem_moved hitems' o ho)
            · exact .inr (hafter o (by
                rw [List.flatMap_append]
                exact List.mem_append_left _ ho))
            · exact .inr (hlast o (List.mem_singleton.1 ho ▸ List.mem_cons_self))
        rw [show done ++ (I₁ ++ .group c head pending :: t).flatMap RoundItem.ops ++ [a] =
          (done ++ I₁.flatMap RoundItem.ops ++ [head]) ++
            (pending.map (·.start) ++ t.flatMap RoundItem.ops ++ [a]) by simp [RoundItem.ops],
          List.filter_append, hbetween, List.append_nil]
    have ha' : [a].filter S = [a].filter (fun o => S o && decide (o ∉ s.moved)) :=
      List.filter_congr fun o ho => by
        rw [List.mem_singleton.1 ho]
        simp [hanchor]
    rw [hblock, ← hfilter.1, List.filter_append, List.filter_append, ← List.singleton_append,
      List.filter_append [a], List.filter_append s.moved, List.filter_filter, List.filter_filter,
      hfilter.2, ha', List.append_nil, ← List.append_assoc, ← List.filter_append]
  · have hkeep : ∀ l : List SliceOp, (l.filter (· ∉ s.moved)).filter S = l.filter S := fun l => by
      rw [List.filter_filter]
      refine List.filter_congr fun o _ => ?_
      by_cases ho : o ∈ s.moved
      · simp [Bool.eq_false_iff.2 fun hSo => hx ⟨o, ho, hSo⟩]
      · simp [ho]
    have hmoved : s.moved.filter S = [] :=
      List.filter_eq_nil_iff.2 fun o ho hSo => hx ⟨o, ho, hSo⟩
    rw [h.block_group hitems]
    simp only [List.filter_append, List.filter_cons, hkeep, hmoved, List.nil_append,
      List.append_assoc, List.filter_nil]
    split_ifs <;> simp

theorem Ordering.pending_of_starts (h : Ordering channel full rest s done items) {o : SliceOp}
    (ho : o ∈ items.flatMap RoundItem.ops) {task : TaskRef} (hstart : o.starts task = true)
    (htask : 0 < task.slice) : ∃ p ∈ s.pending, p.task = task := by
  obtain ⟨i, hi, ho⟩ := List.mem_flatMap.1 ho
  have hvalid := h.round.valid i hi
  cases i with
  | op o' =>
    obtain rfl := List.mem_singleton.1 ho
    have := hvalid task
    rw [hstart] at this
    cases this
  | group c head pending =>
    obtain ⟨-, hslice, hstarts, -⟩ := hvalid
    rcases List.mem_cons.1 ho with rfl | ho
    · rw [hslice task hstart] at htask
      cases htask
    · obtain ⟨p, hp, rfl⟩ := List.mem_map.1 ho
      refine ⟨p, ?_, SliceOp.starts_unique (hstarts p hp).1 hstart⟩
      rw [h.round.pending]
      exact List.mem_flatMap.2 ⟨_, hi, hp⟩

theorem Round.nil {s : OrderState} (hpending : s.pending = []) (hround : s.round = [])
    (hanchor : s.anchor = none) : Round channel [] s where
  pending := hpending
  round := fun c => by rw [hround]; rfl
  anchor := hanchor
  channels := List.nodup_nil
  valid := fun i hi => absurd hi List.not_mem_nil
  stops := .nil

/-- **The end of a round.** -/
theorem Ordering.flushed (hfull : SplitBlock full) (h : Ordering channel full rest s done items) :
    ∃ done', Ordering channel full rest (flush s) done' [] := by
  cases ha : s.anchor with
  | none =>
    have hheads : items.filterMap RoundItem.head? = [] :=
      List.getLast?_eq_none_iff.1 (h.round.anchor ▸ ha)
    have hsame : (flush s).block = s.block ∧ (flush s).lateTasks = s.lateTasks := by
      rw [flush, ha]
      exact ⟨rfl, rfl⟩
    refine ⟨done ++ items.flatMap RoundItem.ops, ?_, ?_, ?_, ?_, ?_, Round.nil rfl rfl rfl⟩
    · rw [hsame.1, h.block]
      simp
    · rw [hsame.1]
      exact h.kept
    · rw [hsame.2]
      exact h.late
    · rw [hsame.2]
      intro c hc hch o ho
      rcases List.mem_append.1 ho with ho | ho
      · exact h.notStarted c hc hch o ho
      · refine Bool.eq_false_iff.2 fun hstart => ?_
        obtain ⟨p, hp, -⟩ := h.pending_of_starts ho hstart (SliceOp.late_iff.1 (h.late c hc).1).2
        rw [h.round.pending, (no_heads hheads).1] at hp
        cases hp
    · rw [hsame.2]
      exact h.lateNodup
  | some a =>
    obtain ⟨J₁, c₀, pending₀, J₂, hitems, hJ⟩ := exists_anchor (h.round.anchor ▸ ha)
    obtain ⟨hblock, hperm⟩ := h.flush_block hfull hitems ha
    have hlate : (flush s).lateTasks.Sublist s.lateTasks ∧
        ∀ c ∈ (flush s).lateTasks, ∀ p ∈ s.pending, c.configures p.task = false := by
      rw [flush, ha]
      obtain ⟨hsub, hnot⟩ := @place_late a s.block s.lateTasks (s.pending.mergeSort Pending.le)
        h.lateNodup (h.unique hfull)
      exact ⟨hsub, fun c hc p hp => hnot c hc p (List.mem_mergeSort.2 hp)⟩
    refine ⟨_, hblock, ⟨hperm.trans h.kept.perm, fun S hS => ?_⟩,
      fun c hc => h.late c (hlate.1.subset hc), fun c hc hch o ho => ?_,
      h.lateNodup.sublist hlate.1, Round.nil rfl rfl rfl⟩
    · rw [h.filter_flush hfull hitems hJ ha hS]
      exact h.kept.filter S hS
    · have hops : ∀ o', o' ∈ done ++ J₁.flatMap RoundItem.ops ∨ o' = a ∨
          o' ∈ pending₀.map (·.start) ++ J₂.flatMap RoundItem.ops →
          o' ∈ done ++ items.flatMap RoundItem.ops := fun o' ho' => by
        rw [hitems]
        simp only [List.flatMap_append, List.flatMap_cons, RoundItem.ops, List.mem_append,
          List.mem_cons] at ho' ⊢
        tauto
      have hmem : o ∈ done ++ items.flatMap RoundItem.ops := by
        rcases List.mem_append.1 ho with ho | ho
        · exact hops o (.inl (List.mem_of_mem_filter ho))
        rcases List.mem_cons.1 ho with rfl | ho
        · exact hops o (.inr (.inl rfl))
        rcases List.mem_append.1 ho with ho | ho
        · exact h.mem_of_mem_moved hfull ho
        · exact hops o (.inr (.inr (List.mem_of_mem_filter ho)))
      rcases List.mem_append.1 hmem with hmem | hmem
      · exact h.notStarted c (hlate.1.subset hc) hch o hmem
      · refine Bool.eq_false_iff.2 fun hstart => ?_
        have hcl := (h.late c (hlate.1.subset hc)).1
        obtain ⟨p, hp, hpt⟩ := h.pending_of_starts hmem hstart (SliceOp.late_iff.1 hcl).2
        have hconf := hlate.2 c hc p hp
        rw [hpt, SliceOp.configures_iff.2 ⟨(SliceOp.late_iff.1 hcl).1, rfl⟩] at hconf
        cases hconf

end Flush

end MlirAie.Dma.Slices
