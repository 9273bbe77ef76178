import MlirAie.Dma.Slices

/-!
# Starts behind a round's last

Operations of which one may not pass the other depend on each other. What the end of a round moves is
its pending starts, sorted, and before the first of each task the configure that was late.

* `Dependent`, `Clique`, `Kept`: dependences, and blocks that keep them;
* `weave`, `filter_weave`, `filter_weave_late`: what is moved, and what a set has of it;
* **`place_append`**: it ends up behind the round's last start.
-/

namespace MlirAie.Dma.Slices

open MlirAie.Lib

variable {channel : ℕ → Option ChannelKey}

/-! ## Dependences -/

variable (channel) in
/-- One of the two may not pass the other. -/
def Dependent (o o' : SliceOp) : Prop :=
  (Fixed channel o = true ∧ Fixed channel o' = true) ∨
    (∃ c, o.startsOn channel c = true ∧ o'.startsOn channel c = true) ∨
    (∃ task, o.starts task = true ∧ (Stops channel task o' = true ∨ o'.configures task = true)) ∨
    ∃ task, o'.starts task = true ∧ (Stops channel task o = true ∨ o.configures task = true)

variable (channel) in
/-- All operations of a set depend on each other. -/
def Clique (S : SliceOp → Bool) : Prop :=
  ∀ o o', S o = true → S o' = true → o ≠ o' → Dependent channel o o'

variable (channel) in
/-- The operations of a block, with such sets in order. -/
structure Kept (before after : List SliceOp) : Prop where
  perm : after.Perm before
  filter : ∀ S, Clique channel S → after.filter S = before.filter S

theorem SliceOp.starts_unique {o : SliceOp} {task task' : TaskRef} (h : o.starts task = true)
    (h' : o.starts task' = true) : task = task' := by
  unfold SliceOp.starts at h h'
  split at h <;> simp_all

theorem SliceOp.starts_iff {o : SliceOp} {task : TaskRef} :
    o.starts task = true ↔ ∃ r s, o.kind = .start task r s := by
  unfold SliceOp.starts
  split <;> simp_all [eq_comm]

theorem SliceOp.configures_iff {o : SliceOp} {task : TaskRef} :
    o.configures task = true ↔ (∃ s, o.kind = .configure s) ∧ task = ⟨o.place, o.number⟩ := by
  unfold SliceOp.configures
  split <;> simp_all

theorem SliceOp.startsOn_iff {o : SliceOp} {c : ChannelKey} :
    o.startsOn channel c = true ↔ ∃ task, o.starts task = true ∧ channel task.task = some c := by
  unfold SliceOp.startsOn SliceOp.starts
  split <;> simp_all

theorem SliceOp.late_iff {o : SliceOp} :
    o.late = true ↔ (∃ s, o.kind = .configure s) ∧ 0 < o.number := by
  unfold SliceOp.late
  split <;> simp_all

variable (channel) in
theorem SliceOp.not_startsOn_of_late {o : SliceOp} (h : o.late = true) (c : ChannelKey) :
    o.startsOn channel c = false := by
  obtain ⟨⟨s, hs⟩, -⟩ := SliceOp.late_iff.1 h
  simp [SliceOp.startsOn, hs]

theorem SliceOp.not_starts_of_late {o : SliceOp} (h : o.late = true) (task : TaskRef) :
    o.starts task = false := by
  obtain ⟨⟨s, hs⟩, -⟩ := SliceOp.late_iff.1 h
  simp [SliceOp.starts, hs]

theorem Dependent.of_late {o o' : SliceOp} (hlate : o.late = true)
    (h : Dependent channel o o') : o'.starts ⟨o.place, o.number⟩ = true := by
  obtain ⟨⟨s, hs⟩, hpos⟩ := SliceOp.late_iff.1 hlate
  rcases h with ⟨hf, -⟩ | ⟨c, hc, -⟩ | ⟨t, ht, -⟩ | ⟨t, ht, hstop | hconf⟩
  · simp [Fixed, hs, hlate] at hf
  · rw [SliceOp.not_startsOn_of_late channel hlate] at hc
    cases hc
  · simp [SliceOp.starts, hs] at ht
  · simp [Stops, hs] at hstop
  · rw [(SliceOp.configures_iff.1 hconf).2] at ht
    exact ht

theorem Dependent.of_starts {o o' : SliceOp} {task : TaskRef} {c : ChannelKey}
    (ho : o.starts task = true) (hc : channel task.task = some c) (h : Dependent channel o o') :
    o'.startsOn channel c = true ∨ Stops channel task o' = true ∨ o'.configures task = true := by
  obtain ⟨r, s, hkind⟩ := SliceOp.starts_iff.1 ho
  rcases h with ⟨hf, -⟩ | ⟨c', hc', hc''⟩ | ⟨t, ht, h⟩ | ⟨t, ht, hstop | hconf⟩
  · simp [Fixed, hkind, hc] at hf
  · obtain ⟨t, ht, hct⟩ := SliceOp.startsOn_iff.1 hc'
    rw [SliceOp.starts_unique ht ho, hc] at hct
    rw [Option.some.inj hct]
    exact .inl hc''
  · rw [SliceOp.starts_unique ht ho] at h
    exact .inr h
  · simp [Stops, hkind, hc] at hstop
  · simp [SliceOp.configures, hkind] at hconf

/-! ## A round's starts -/

/-- The starts put behind an operation, with the configures that are moved. -/
def weave : List SliceOp → List Pending → List SliceOp
  | _, [] => []
  | late, p :: pending =>
    match late.find? (·.configures p.task) with
    | some task => task :: p.start :: weave (late.erase task) pending
    | none => p.start :: weave late pending

theorem mem_weave {late : List SliceOp} {pending : List Pending} {o : SliceOp}
    (h : o ∈ weave late pending) : (∃ p ∈ pending, o = p.start) ∨
      (o ∈ late ∧ ∃ p ∈ pending, o.configures p.task = true) := by
  induction pending generalizing late with
  | nil => cases h
  | cons p pending ih =>
    rw [weave] at h
    split at h
    · rename_i task htask
      rcases List.mem_cons.1 h with rfl | h
      · exact .inr ⟨List.mem_of_find?_eq_some htask, p, List.mem_cons_self,
          by simpa using List.find?_some htask⟩
      rcases List.mem_cons.1 h with rfl | h
      · exact .inl ⟨p, List.mem_cons_self, rfl⟩
      rcases ih h with ⟨q, hq, ho⟩ | ⟨ho, q, hq, hconf⟩
      · exact .inl ⟨q, List.mem_cons_of_mem _ hq, ho⟩
      · exact .inr ⟨List.mem_of_mem_erase ho, q, List.mem_cons_of_mem _ hq, hconf⟩
    · rcases List.mem_cons.1 h with rfl | h
      · exact .inl ⟨p, List.mem_cons_self, rfl⟩
      rcases ih h with ⟨q, hq, ho⟩ | ⟨ho, q, hq, hconf⟩
      · exact .inl ⟨q, List.mem_cons_of_mem _ hq, ho⟩
      · exact .inr ⟨ho, q, List.mem_cons_of_mem _ hq, hconf⟩

theorem start_mem_weave {late : List SliceOp} {pending : List Pending} {p : Pending}
    (h : p ∈ pending) : p.start ∈ weave late pending := by
  induction pending generalizing late with
  | nil => cases h
  | cons q pending ih =>
    rw [weave]
    rcases List.mem_cons.1 h with rfl | h
    · split <;> simp
    · split
      · exact List.mem_cons_of_mem _ (List.mem_cons_of_mem _ (ih h))
      · exact List.mem_cons_of_mem _ (ih h)

/-- The starts and the late configures of a block are distinct. -/
structure Apart (late : List SliceOp) (pending : List Pending) : Prop where
  configures : late.Nodup
  starts : (pending.map (·.start)).Nodup
  apart : ∀ p ∈ pending, p.start ∉ late

theorem Apart.tail {late : List SliceOp} {p : Pending} {pending : List Pending}
    (h : Apart late (p :: pending)) : Apart late pending :=
  ⟨h.configures, (List.nodup_cons.1 h.starts).2, fun q hq => h.apart q (List.mem_cons_of_mem _ hq)⟩

theorem Apart.erase {late : List SliceOp} {pending : List Pending} (h : Apart late pending)
    (task : SliceOp) : Apart (late.erase task) pending :=
  ⟨h.configures.erase task, h.starts, fun p hp hmem => h.apart p hp (List.mem_of_mem_erase hmem)⟩

theorem Apart.start_not_mem {late : List SliceOp} {p : Pending} {pending : List Pending}
    (h : Apart late (p :: pending)) : p.start ∉ weave late pending := by
  intro hmem
  rcases mem_weave hmem with ⟨q, hq, heq⟩ | ⟨hlate, -⟩
  · exact (List.nodup_cons.1 h.starts).1 (List.mem_map.2 ⟨q, hq, heq.symm⟩)
  · exact h.apart p List.mem_cons_self hlate

theorem Apart.nodup_weave {late : List SliceOp} {pending : List Pending}
    (h : Apart late pending) : (weave late pending).Nodup := by
  induction pending generalizing late with
  | nil => exact List.nodup_nil
  | cons p pending ih =>
    rw [weave]
    split
    · rename_i task htask
      have hmem := List.mem_of_find?_eq_some htask
      have htail := (h.erase task).tail
      refine List.nodup_cons.2 ⟨fun hm => ?_,
        List.nodup_cons.2 ⟨(h.erase task).start_not_mem, ih htail⟩⟩
      rcases List.mem_cons.1 hm with rfl | hm
      · exact h.apart p List.mem_cons_self hmem
      rcases mem_weave hm with ⟨q, hq, rfl⟩ | ⟨hlate, -⟩
      · exact h.apart q (List.mem_cons_of_mem _ hq) hmem
      · exact h.configures.not_mem_erase hlate
    · exact List.nodup_cons.2 ⟨h.start_not_mem, ih h.tail⟩

/-- **Starts put behind an operation** end up there in their order, each configured first. -/
theorem place_append {a : SliceOp} {l l' late : List SliceOp} {pending : List Pending}
    (h : Apart late pending) (ha : a ∉ l) (ha' : a ∉ l') (hlate : a ∉ late)
    (hstart : ∀ p ∈ pending, p.start ≠ a) :
    (place a (l ++ a :: l') late pending).1 =
      gather a (l ++ a :: l') (weave late pending) := by
  induction pending generalizing a l l' late with
  | nil => rfl
  | cons p pending ih =>
    have hp := hstart p List.mem_cons_self
    have hmove := moveAfter_append ha ha' hp
    have hne : ∀ q ∈ pending, q.start ≠ p.start := fun q hq heq =>
      (List.nodup_cons.1 h.starts).1 (List.mem_map.2 ⟨q, hq, heq⟩)
    have hl : p.start ∉ l.filter (· ≠ p.start) ++ [a] := by simp [hp]
    have hl' : p.start ∉ l'.filter (· ≠ p.start) := by simp
    have hshift : ∀ m : List SliceOp, l.filter (· ≠ p.start) ++ a :: p.start :: m =
        (l.filter (· ≠ p.start) ++ [a]) ++ p.start :: m := fun m => by simp
    rw [place, weave]
    cases htask : late.find? (·.configures p.task) with
    | some task =>
      have hmem := List.mem_of_find?_eq_some htask
      have hts : task ≠ p.start := fun heq => h.apart p List.mem_cons_self (heq ▸ hmem)
      have hta : task ≠ a := fun heq => hlate (heq ▸ hmem)
      have hb : moveBefore task p.start (moveAfter p.start a (l ++ a :: l')) =
          (l.filter (· ≠ task)).filter (· ≠ p.start) ++ [a] ++ [task] ++
            p.start :: (l'.filter (· ≠ task)).filter (· ≠ p.start) := by
        rw [hmove, hshift, moveBefore_append hl hl' hts]
        simp [List.filter_filter, hta.symm, Bool.and_comm]
      have hg : moveAfter p.start task (moveAfter task a (l ++ a :: l')) =
          (l.filter (· ≠ task)).filter (· ≠ p.start) ++ [a] ++ [task] ++
            p.start :: (l'.filter (· ≠ task)).filter (· ≠ p.start) := by
        have hl₁ : task ∉ l.filter (· ≠ task) ++ [a] := by simp [hta]
        have hl₂ : task ∉ l'.filter (· ≠ task) := by simp
        rw [moveAfter_append ha ha' hta, show ∀ m : List SliceOp,
          l.filter (· ≠ task) ++ a :: task :: m = (l.filter (· ≠ task) ++ [a]) ++ task :: m from
            fun m => by simp, moveAfter_append hl₁ hl₂ hts.symm]
        simp [List.filter_append, hp.symm]
      simp only [gather]
      rw [hg, hb]
      refine ih (h.erase task).tail ?_ (by simp)
        (fun hm => h.apart p List.mem_cons_self (List.mem_of_mem_erase hm)) hne
      simp [hp, hts.symm]
    | none =>
      simp only [gather]
      rw [hmove, hshift]
      exact ih h.tail hl hl' (h.apart p List.mem_cons_self) hne

/-- Late configures of one task are the same. -/
def Unique (late : List SliceOp) : Prop :=
  ∀ c ∈ late, ∀ c' ∈ late, ∀ task, c.configures task = true → c'.configures task = true → c = c'

theorem Unique.erase {late : List SliceOp} (h : Unique late) (task : SliceOp) :
    Unique (late.erase task) := fun c hc c' hc' =>
  h c (List.mem_of_mem_erase hc) c' (List.mem_of_mem_erase hc')

/-- The configures that stay late: of no task started. -/
theorem place_late {a : SliceOp} {l late : List SliceOp} {pending : List Pending}
    (hlate : late.Nodup) (hunique : Unique late) :
    (place a l late pending).2.Sublist late ∧ ∀ c ∈ (place a l late pending).2,
      ∀ p ∈ pending, c.configures p.task = false := by
  induction pending generalizing a l late with
  | nil => exact ⟨.refl _, fun _ _ _ hp => absurd hp List.not_mem_nil⟩
  | cons p pending ih =>
    rw [place]
    cases htask : late.find? (·.configures p.task) with
    | some task =>
      obtain ⟨hsub, hnot⟩ := ih (hlate.erase task) (hunique.erase task)
      refine ⟨hsub.trans List.erase_sublist, fun c hc q hq => ?_⟩
      rcases List.mem_cons.1 hq with rfl | hq
      · refine Bool.eq_false_iff.2 fun hconf => ?_
        have hmem := hsub.subset hc
        rw [hunique c (List.mem_of_mem_erase hmem) task (List.mem_of_find?_eq_some htask) _ hconf
          (by simpa using List.find?_some htask)] at hmem
        exact hlate.not_mem_erase hmem
      · exact hnot c hc q hq
    | none =>
      obtain ⟨hsub, hnot⟩ := ih hlate hunique
      refine ⟨hsub, fun c hc q hq => ?_⟩
      rcases List.mem_cons.1 hq with rfl | hq
      · exact Bool.eq_false_iff.2 (List.find?_eq_none.1 htask c (hsub.subset hc))
      · exact hnot c hc q hq

theorem filter_weave {late : List SliceOp} {pending : List Pending} {S : SliceOp → Bool}
    (h : ∀ c ∈ late, (∃ p ∈ pending, c.configures p.task = true) → S c = false) :
    (weave late pending).filter S = (pending.map (·.start)).filter S := by
  induction pending generalizing late with
  | nil => rfl
  | cons p pending ih =>
    rw [weave]
    cases htask : late.find? (·.configures p.task) with
    | some task =>
      have hS := h task (List.mem_of_find?_eq_some htask)
        ⟨p, List.mem_cons_self, by simpa using List.find?_some htask⟩
      simp only
      rw [List.filter_cons_of_neg (by simp [hS]), List.map_cons, List.filter_cons, List.filter_cons,
        ih fun c hc ⟨q, hq, hconf⟩ =>
          h c (List.mem_of_mem_erase hc) ⟨q, List.mem_cons_of_mem _ hq, hconf⟩]
    | none =>
      simp only
      rw [List.map_cons, List.filter_cons, List.filter_cons,
        ih fun c hc ⟨q, hq, hconf⟩ => h c hc ⟨q, List.mem_cons_of_mem _ hq, hconf⟩]

theorem filter_weave_late {late : List SliceOp} {pending : List Pending} {S : SliceOp → Bool}
    {c : SliceOp} (hlate : late.Nodup) (hunique : Unique late) (hc : c ∈ late) (hS : S c = true)
    (hother : ∀ o ∈ late, S o = true → o = c)
    (hstart : ∀ p ∈ pending, S p.start = true → c.configures p.task = true)
    (hex : ∃ p ∈ pending, c.configures p.task = true) :
    (weave late pending).filter S = c :: (pending.map (·.start)).filter S := by
  induction pending generalizing late with
  | nil =>
    obtain ⟨p, hp, -⟩ := hex
    cases hp
  | cons p pending ih =>
    have htail : ∀ q ∈ pending, S q.start = true → c.configures q.task = true := fun q hq =>
      hstart q (List.mem_cons_of_mem _ hq)
    rw [weave]
    by_cases hconf : c.configures p.task = true
    · have htask : late.find? (·.configures p.task) = some c := by
        cases htask : late.find? (·.configures p.task) with
        | none => exact absurd hconf (List.find?_eq_none.1 htask c hc)
        | some task =>
          rw [hunique task (List.mem_of_find?_eq_some htask) c hc _
            (by simpa using List.find?_some htask) hconf]
      rw [htask]
      simp only
      rw [List.filter_cons_of_pos hS, List.map_cons, List.filter_cons, List.filter_cons,
        filter_weave]
      intro o ho _
      refine Bool.eq_false_iff.2 fun hSo => ?_
      rw [hother o (List.mem_of_mem_erase ho) hSo] at ho
      exact hlate.not_mem_erase ho
    · have hnot : S p.start = false := Bool.eq_false_iff.2 fun h =>
        hconf (hstart p List.mem_cons_self h)
      have hex' : ∃ q ∈ pending, c.configures q.task = true := by
        obtain ⟨q, hq, hcq⟩ := hex
        rcases List.mem_cons.1 hq with rfl | hq
        exacts [absurd hcq hconf, ⟨q, hq, hcq⟩]
      rw [List.map_cons, List.filter_cons_of_neg (by simp [hnot])]
      cases htask : late.find? (·.configures p.task) with
      | some task =>
        have hne : task ≠ c := fun heq => hconf (heq ▸ by simpa using List.find?_some htask)
        have hSt : S task = false := Bool.eq_false_iff.2 fun h =>
          hne (hother task (List.mem_of_find?_eq_some htask) h)
        simp only
        rw [List.filter_cons_of_neg (by simp [hSt]), List.filter_cons_of_neg (by simp [hnot])]
        exact ih (hlate.erase task) (hunique.erase task)
          ((List.mem_erase_of_ne hne.symm).2 hc)
          (fun o ho => hother o (List.mem_of_mem_erase ho)) htail hex'
      | none =>
        simp only
        rw [List.filter_cons_of_neg (by simp [hnot])]
        exact ih hlate hunique hc hother htail hex'

end MlirAie.Dma.Slices
