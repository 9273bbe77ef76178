import MlirAie.Route.Parts

/-!
# Splitting a source's tree loses no packet

A part is split only in two that each keep an id, and both keep the destinations that take one of
theirs. So the parts of a source go on to carry all it sends, each packet once.

* `PartsSound`: what holds of the parts of a source;
* `Reached`: the states of an iteration, from the first on;
* **`parts_sound`**: it holds of every state reached.
-/

namespace MlirAie.Route

open Lib

variable {calls : List FlowCall} {src dst : PhysPort} {id : ℕ} {pf : Pathfinder} {st : RouteState}

/-! ## What the sources send -/

def Sends (calls : List FlowCall) (src dst : PhysPort) (id : ℕ) : Prop :=
  ∃ c ∈ calls, c.src = src ∧ c.dst = dst ∧ c.packetId = some id

structure Pathfinder.Holds (pf : Pathfinder) (calls : List FlowCall) : Prop where
  sends : ∀ src dst id, (src, dst, id) ∈ pf.packetIdsTo ↔ Sends calls src dst id
  nodup : (pf.flows.map Flow.src).Nodup
  flows : ∀ src, src ∈ pf.flows.map Flow.src ↔ ∃ c ∈ calls, c.src = src
  dsts : ∀ f ∈ pf.flows, ∀ dst, dst ∈ f.dsts ↔ ∃ c ∈ calls, c.src = f.src ∧ c.dst = dst
  packetId : ∀ f ∈ pf.flows, ∃ c ∈ calls, c.src = f.src ∧ c.packetId = f.packetId
  priorityIds : ∀ src, ∀ id ∈ pf.priorityIds src, ∃ dst, Sends calls src dst id
  priority : ∀ f ∈ pf.flows, f.isPriorityFlow = true →
    (∀ c ∈ calls, c.src = f.src → c.packetId.isSome = true) → (pf.priorityIds f.src).Nonempty

theorem map_src_addDst (src dst : PhysPort) (packetId : Option ℕ) (prio : Bool) (fs : List Flow) :
    (addDst src dst packetId prio fs).map Flow.src =
      if src ∈ fs.map Flow.src then fs.map Flow.src else fs.map Flow.src ++ [src] := by
  induction fs with
  | nil => rfl
  | cons f fs ih =>
    rw [addDst]
    by_cases hf : f.src = src
    · have hmem : src ∈ (f :: fs).map Flow.src := by
        rw [List.map_cons, hf]
        exact List.mem_cons_self
      rw [if_pos hf, if_pos hmem]
      cases prio <;> rfl
    · rw [if_neg hf, List.map_cons, ih, List.map_cons]
      by_cases hfs : src ∈ fs.map Flow.src
      · rw [if_pos hfs, if_pos (List.mem_cons_of_mem _ hfs)]
      · rw [if_neg hfs, if_neg fun h => (List.mem_cons.1 h).elim (fun h => hf h.symm) hfs,
          List.cons_append]

theorem mem_addDst {src dst : PhysPort} {packetId : Option ℕ} {prio : Bool} {fs : List Flow}
    (hnodup : (fs.map Flow.src).Nodup) {g : Flow} (hg : g ∈ addDst src dst packetId prio fs) :
    (g ∈ fs ∧ g.src ≠ src) ∨
    (src ∉ fs.map Flow.src ∧
      g = ⟨if packetId.isSome then 0 else -1, prio, src, [dst], packetId⟩) ∨
    ∃ f ∈ fs, f.src = src ∧ g.src = src ∧ g.packetId = f.packetId ∧
      (g.isPriorityFlow = true → f.isPriorityFlow = true ∨ prio = true) ∧
      ∀ x, x ∈ g.dsts ↔ x ∈ f.dsts ∨ x = dst := by
  induction fs with
  | nil => exact .inr (.inl ⟨List.not_mem_nil, List.mem_singleton.1 hg⟩)
  | cons f fs ih =>
    rw [List.map_cons, List.nodup_cons] at hnodup
    rw [addDst] at hg
    by_cases hf : f.src = src
    · rw [if_pos hf, List.mem_cons] at hg
      rcases hg with rfl | hg
      · refine .inr (.inr ⟨f, List.mem_cons_self, hf, ?_⟩)
        cases prio <;> simp [hf, or_comm]
      · refine .inl ⟨List.mem_cons_of_mem _ hg, fun hsrc => hnodup.1 ?_⟩
        rw [hf, ← hsrc]
        exact List.mem_map_of_mem hg
    · rw [if_neg hf, List.mem_cons] at hg
      rcases hg with rfl | hg
      · exact .inl ⟨List.mem_cons_self, hf⟩
      · rcases ih hnodup.2 hg with ⟨hmem, hne⟩ | ⟨hnot, rfl⟩ | ⟨f', hmem, hrest⟩
        · exact .inl ⟨List.mem_cons_of_mem _ hmem, hne⟩
        · refine .inr (.inl ⟨?_, rfl⟩)
          rw [List.map_cons, List.mem_cons, not_or]
          exact ⟨Ne.symm hf, hnot⟩
        · exact .inr (.inr ⟨f', List.mem_cons_of_mem _ hmem, hrest⟩)

theorem sends_concat {c : FlowCall} : Sends (calls ++ [c]) src dst id ↔
    Sends calls src dst id ∨ (c.src = src ∧ c.dst = dst ∧ c.packetId = some id) := by
  simp [Sends, or_and_right, exists_or]

namespace Pathfinder.Holds

theorem empty (pf : Pathfinder) : pf.empty.Holds [] where
  sends := by simp [Sends, Pathfinder.empty]
  nodup := List.nodup_nil
  flows := by simp [Pathfinder.empty]
  dsts := fun f hf => absurd hf List.not_mem_nil
  packetId := fun f hf => absurd hf List.not_mem_nil
  priorityIds := fun src id hid => absurd hid (Finset.notMem_empty id)
  priority := fun f hf => absurd hf List.not_mem_nil

theorem addFlow (h : pf.Holds calls) (c : FlowCall) : (pf.addFlow c).Holds (calls ++ [c]) := by
  have hcall : ∀ {P : FlowCall → Prop}, (∃ d ∈ calls ++ [c], P d) ↔ (∃ d ∈ calls, P d) ∨ P c := by
    intro P
    simp [or_and_right, exists_or]
  have hids : ∀ src id, id ∈ (pf.addFlow c).priorityIds src ↔ id ∈ pf.priorityIds src ∨
      (c.src = src ∧ c.packetId = some id ∧ (c.isPriorityFlow &&
        (pf.prioritize || decide (c.src ∈ pf.pinned))) = true) := by
    intro src id
    simp only [Pathfinder.addFlow]
    cases hid : c.packetId with
    | none => simp
    | some x =>
      rw [Option.elim_some]
      split_ifs with hprio
      · by_cases hsrc : src = c.src
        · subst hsrc
          rw [Function.update_self, Finset.mem_insert]
          simp only [Option.some.injEq, hprio, true_and, and_true, eq_comm, or_comm]
        · rw [Function.update_of_ne hsrc]
          simp [Ne.symm hsrc]
      · simp [hprio]
  refine ⟨fun src dst id => ?_, ?_, fun src => ?_, fun g hg dst => ?_, fun g hg => ?_,
    fun src id hid => ?_, fun g hg hprio hpackets => ?_⟩
  · rw [sends_concat, ← h.sends]
    simp only [Pathfinder.addFlow]
    cases c.packetId with
    | none => simp
    | some x =>
      rw [Option.elim_some, mem_appendNew, List.mem_singleton]
      simp only [Prod.mk.injEq, Option.some.injEq, eq_comm]
  · rw [Pathfinder.addFlow, map_src_addDst]
    split_ifs with hmem
    · exact h.nodup
    · rw [List.nodup_append]
      refine ⟨h.nodup, List.nodup_singleton _, fun x hx y hy hxy => hmem ?_⟩
      rw [← List.mem_singleton.1 hy, ← hxy]
      exact hx
  · rw [Pathfinder.addFlow, map_src_addDst, hcall, ← h.flows]
    split_ifs with hmem
    · rw [or_iff_left_of_imp]
      rintro rfl
      exact hmem
    · rw [List.mem_append, List.mem_singleton, eq_comm (a := src)]
  · rw [hcall]
    rcases mem_addDst h.nodup hg with ⟨hmem, hne⟩ | ⟨hnot, rfl⟩ | ⟨f, hmem, hf, hgf, -, -, hdsts⟩
    · rw [h.dsts g hmem, or_iff_left fun hc => hne hc.1.symm]
    · have hnone : ¬∃ d ∈ calls, d.src = c.src ∧ d.dst = dst := fun ⟨d, hd, hsrc, _⟩ =>
        hnot ((h.flows c.src).2 ⟨d, hd, hsrc⟩)
      rw [or_iff_right hnone, List.mem_singleton, and_iff_right rfl, eq_comm]
    · rw [hdsts, h.dsts f hmem, hf, hgf, and_iff_right rfl, eq_comm (a := dst)]
  · rw [hcall]
    rcases mem_addDst h.nodup hg with ⟨hmem, -⟩ | ⟨-, rfl⟩ | ⟨f, hmem, hf, hgf, hid, -, -⟩
    · exact .inl (h.packetId g hmem)
    · exact .inr ⟨rfl, rfl⟩
    · rw [hid, hgf, ← hf]
      exact .inl (h.packetId f hmem)
  · rcases (hids src id).1 hid with hid | ⟨hsrc, hid, -⟩
    · obtain ⟨dst, hdst⟩ := h.priorityIds src id hid
      exact ⟨dst, sends_concat.2 (.inl hdst)⟩
    · exact ⟨c.dst, sends_concat.2 (.inr ⟨hsrc, rfl, hid⟩)⟩
  · have hold : ∀ f ∈ pf.flows, f.src = g.src → f.isPriorityFlow = true →
        ((pf.addFlow c).priorityIds g.src).Nonempty := by
      intro f hf hsrc hprio
      obtain ⟨id, hid⟩ := h.priority f hf hprio fun d hd hsrc' =>
        hpackets d (List.mem_append_left _ hd) (hsrc'.trans hsrc)
      exact ⟨id, (hids _ _).2 (.inl (hsrc ▸ hid))⟩
    have hnew : g.src = c.src → (c.isPriorityFlow &&
        (pf.prioritize || decide (c.src ∈ pf.pinned))) = true →
        ((pf.addFlow c).priorityIds g.src).Nonempty := by
      intro hsrc hprio
      obtain ⟨id, hid⟩ := Option.isSome_iff_exists.1
        (hpackets c (List.mem_append_right _ (List.mem_singleton_self c)) hsrc.symm)
      exact ⟨id, (hids _ _).2 (.inr ⟨hsrc.symm, hid, hprio⟩)⟩
    rcases mem_addDst h.nodup hg with ⟨hmem, -⟩ | ⟨-, rfl⟩ | ⟨f, hmem, hf, hgf, -, himp, -⟩
    · exact hold g hmem rfl hprio
    · exact hnew rfl hprio
    · rcases himp hprio with hprio | hprio
      · exact hold f hmem (hf.trans hgf.symm) hprio
      · exact hnew hgf hprio

/-- Reordering the flows, and what is in them, changes nothing. -/
theorem sortFlows (h : pf.Holds calls) : pf.sortFlows.Holds calls := by
  have hsort : ∀ f ∈ pf.sortFlows.flows, ∃ g ∈ pf.flows, f.src = g.src ∧
      f.packetId = g.packetId ∧ f.isPriorityFlow = g.isPriorityFlow ∧
      ∀ x, x ∈ f.dsts ↔ x ∈ g.dsts := by
    intro f hf
    rw [Pathfinder.sortFlows, List.mem_insertionSort] at hf
    obtain ⟨⟨g, k⟩, hg, rfl⟩ := List.mem_map.1 hf
    obtain ⟨g', hg', rfl⟩ := List.mem_map.1 (List.fst_mem_of_mem_zipIdx hg)
    refine ⟨g', hg', ?_⟩
    split_ifs <;> exact ⟨rfl, rfl, rfl, fun x => List.mem_insertionSort _⟩
  have hsrc : (pf.sortFlows.flows.map Flow.src).Perm (pf.flows.map Flow.src) := by
    have hregroup : ∀ (b : Bool) (fs : List Flow), (regroup b fs).map Flow.src =
        fs.map Flow.src := by
      intro b fs
      rw [regroup, List.map_map]
      conv_rhs => rw [← List.zipIdx_map_fst 0 fs, List.map_map]
      refine List.map_congr_left fun f _ => ?_
      simp only [Function.comp_apply]
      split_ifs <;> rfl
    refine ((List.perm_insertionSort _ _).map _).trans (List.Perm.of_eq ?_)
    rw [hregroup, List.map_map]
    rfl
  refine ⟨h.sends, hsrc.nodup_iff.2 h.nodup, fun src => ?_, fun f hf dst => ?_, fun f hf => ?_,
    h.priorityIds, fun f hf hprio hpackets => ?_⟩
  · rw [hsrc.mem_iff, h.flows]
  · obtain ⟨g, hg, hsrc, -, -, hdsts⟩ := hsort f hf
    rw [hdsts, h.dsts g hg, hsrc]
  · obtain ⟨g, hg, hsrc, hid, -⟩ := hsort f hf
    rw [hsrc, hid]
    exact h.packetId g hg
  · obtain ⟨g, hg, hsrc, -, hprio', -⟩ := hsort f hf
    rw [hsrc] at hpackets ⊢
    exact h.priority g hg (hprio' ▸ hprio) hpackets

theorem withFlows (pf : Pathfinder) (calls : List FlowCall) : (pf.withFlows calls).Holds calls := by
  refine sortFlows ?_
  induction calls using List.reverseRecOn with
  | nil => exact empty pf
  | append_singleton calls c ih =>
    rw [List.foldl_concat]
    exact ih.addFlow c

end Pathfinder.Holds

/-! ## The parts of a source -/

/-- What holds of the parts of a source: each carries some ids, its own among them, to exactly the
destinations that take one of them, and all together carry what the source sends, once. -/
structure PartsSound (calls : List FlowCall) (src : PhysPort) (st : RouteState) : Prop where
  partsOf : ∀ k, k ∈ st.partsOf src ↔ ∃ p, st.parts[k]? = some p ∧ p.flow.src = src
  nonempty : ∀ p ∈ st.parts, p.flow.src = src → p.ids.Nonempty
  disjoint : st.parts.Pairwise fun p q => p.flow.src = src → q.flow.src = src →
    Disjoint p.ids q.ids
  union : ∀ id, (∃ p ∈ st.parts, p.flow.src = src ∧ id ∈ p.ids) ↔ ∃ dst, Sends calls src dst id
  packetId : ∀ p ∈ st.parts, p.flow.src = src → ∃ id ∈ p.ids, p.flow.packetId = some id
  dsts : ∀ p ∈ st.parts, p.flow.src = src →
    ∀ dst, dst ∈ p.flow.dsts ↔ ∃ id ∈ p.ids, Sends calls src dst id

theorem PartsSound.congr {st' : RouteState} (h : PartsSound calls src st)
    (hparts : st'.parts = st.parts) (hof : st'.partsOf = st.partsOf) :
    PartsSound calls src st' where
  partsOf := by rw [hparts, hof]; exact h.partsOf
  nonempty := by rw [hparts]; exact h.nonempty
  disjoint := by rw [hparts]; exact h.disjoint
  union := by rw [hparts]; exact h.union
  packetId := by rw [hparts]; exact h.packetId
  dsts := by rw [hparts]; exact h.dsts

theorem firstId_mem {ids : Finset ℕ} (h : ids.Nonempty) : ∃ id ∈ ids, firstId ids = some id :=
  ⟨ids.min' h, ids.min'_mem h, dif_pos h⟩

/-! ## A split -/

theorem mem_carrying_dsts (h : pf.Holds calls) {f : Flow} {ids : Finset ℕ} {pid : Option ℕ} :
    dst ∈ (pf.carrying f ids pid).dsts ↔ dst ∈ f.dsts ∧ ∃ id ∈ ids, Sends calls f.src dst id := by
  rw [Pathfinder.carrying, List.mem_filter]
  refine and_congr_right fun _ => ?_
  simp only [List.any_eq_true, Bool.and_eq_true, decide_eq_true_eq]
  constructor
  · rintro ⟨⟨x, y, id⟩, hmem, ⟨rfl, rfl⟩, hid⟩
    exact ⟨id, hid, (h.sends _ _ _).1 hmem⟩
  · rintro ⟨id, hid, hsends⟩
    exact ⟨_, (h.sends _ _ _).2 hsends, ⟨rfl, rfl⟩, hid⟩

theorem splitPart_cases (pf : Pathfinder) {k : ℕ} {p : Part} (hp : st.parts[k]? = some p) (ids : Finset ℕ) :
    ∃ (A B : List Part) (kept new : Part), st.parts = A ++ p :: B ∧
      (pf.splitPart st k ids).parts = A ++ kept :: (B ++ [new]) ∧
      (pf.splitPart st k ids).partsOf =
        Function.update st.partsOf p.flow.src (st.partsOf p.flow.src ++ [st.parts.length]) ∧
      A.length = k ∧ kept.ids = p.ids \ ids ∧ new.ids = ids ∧
      new.flow = pf.carrying p.flow ids (firstId ids) ∧
      kept.flow = pf.carrying p.flow (p.ids \ ids)
        (if p.flow.packetId.any (· ∈ ids) then firstId (p.ids \ ids) else p.flow.packetId) := by
  obtain ⟨hk, rfl⟩ := List.getElem?_eq_some_iff.1 hp
  refine ⟨st.parts.take k, st.parts.drop (k + 1), ⟨_, _⟩, ⟨_, ids⟩, ?_, ?_, ?_,
    List.length_take_of_le hk.le, rfl, rfl, rfl, rfl⟩
  · rw [← List.drop_eq_getElem_cons, List.take_append_drop]
  · rw [Pathfinder.splitPart, hp]
    show st.parts.set k _ ++ _ = _
    rw [List.set_eq_take_append_cons_drop, if_pos hk, List.append_assoc, List.cons_append]
    rfl
  · rw [Pathfinder.splitPart, hp]

/-- **A split that leaves both parts an id** keeps what holds of the parts. -/
theorem splitPart_sound (hpf : pf.Holds calls) (h : PartsSound calls src st) {k : ℕ} {p : Part}
    (hp : st.parts[k]? = some p) {ids : Finset ℕ}
    (hids : p.flow.src = src → ids ⊆ p.ids ∧ ids.Nonempty ∧ (p.ids \ ids).Nonempty) :
    PartsSound calls src (pf.splitPart st k ids) := by
  obtain ⟨A, B, kept, new, hparts, hparts', hof, hk, hkept, hnew, hnewFlow, hkeptFlow⟩ :=
    splitPart_cases pf hp ids
  have hkeptSrc : kept.flow.src = p.flow.src := by rw [hkeptFlow]; rfl
  have hnewSrc : new.flow.src = p.flow.src := by rw [hnewFlow]; rfl
  -- a part of the source is one of the old ones, or one of the two
  have hmem : ∀ q ∈ (pf.splitPart st k ids).parts, q.flow.src = src →
      (q ∈ st.parts ∧ (q ∈ A ∨ q ∈ B)) ∨ (p.flow.src = src ∧ (q = kept ∨ q = new)) := by
    intro q hq hsrc
    rw [hparts'] at hq
    simp only [List.mem_append, List.mem_cons, List.not_mem_nil, or_false] at hq
    have hold : q ∈ A ∨ q ∈ B → q ∈ st.parts := by
      rw [hparts, List.mem_append, List.mem_cons]
      exact fun hq => hq.imp_right .inr
    rcases hq with hq | rfl | hq | rfl
    · exact .inl ⟨hold (.inl hq), .inl hq⟩
    · exact .inr ⟨hkeptSrc ▸ hsrc, .inl rfl⟩
    · exact .inl ⟨hold (.inr hq), .inr hq⟩
    · exact .inr ⟨hnewSrc ▸ hsrc, .inr rfl⟩
  have hpmem : p ∈ st.parts := List.mem_of_getElem? hp
  refine ⟨fun j => ?_, fun q hq hsrc => ?_, ?_, fun id => ?_, fun q hq hsrc => ?_,
    fun q hq hsrc dst => ?_⟩
  · have hsrcs : ((pf.splitPart st k ids).parts.map fun q => q.flow.src) =
        (st.parts.map fun q => q.flow.src) ++ [p.flow.src] := by
      rw [hparts', hparts]
      simp [hkeptSrc, hnewSrc]
    have hat : ∀ l : List Part, (∃ q, l[j]? = some q ∧ q.flow.src = src) ↔
        (l.map fun q => q.flow.src)[j]? = some src := fun l => by
      rw [List.getElem?_map, Option.map_eq_some_iff]
    have hlen : j = st.parts.length → ((st.parts.map fun q => q.flow.src) ++ [p.flow.src])[j]? =
        some p.flow.src := fun hj => by simp [hj]
    have hold := h.partsOf j
    rw [hat] at hold
    rw [hat, hsrcs, hof]
    by_cases hj : j = st.parts.length
    · have hnot : j ∉ st.partsOf src := fun hmem => by
        have hlt := (List.getElem?_eq_some_iff.1 (hold.1 hmem)).1
        rw [List.length_map] at hlt
        omega
      rw [hlen hj, Option.some.injEq, eq_comm (a := p.flow.src)]
      by_cases hps : src = p.flow.src
      · subst hps
        simp [hj]
      · rw [Function.update_of_ne hps]
        exact iff_of_false hnot hps
    · have hsame : ((st.parts.map fun q => q.flow.src) ++ [p.flow.src])[j]? =
          (st.parts.map fun q => q.flow.src)[j]? := by
        rcases lt_or_gt_of_ne hj with hlt | hgt
        · rw [List.getElem?_append_left (by rwa [List.length_map])]
        · rw [List.getElem?_eq_none (by simp; omega), List.getElem?_eq_none (by simp; omega)]
      rw [hsame, ← hold]
      by_cases hps : src = p.flow.src
      · subst hps
        simp [hj]
      · rw [Function.update_of_ne hps]
  · rcases hmem q hq hsrc with ⟨hq, -⟩ | ⟨hps, rfl | rfl⟩
    · exact h.nonempty q hq hsrc
    · rw [hkept]
      exact (hids hps).2.2
    · rw [hnew]
      exact (hids hps).2.1
  · have hsymm : ∀ {x y : Part}, (x.flow.src = src → y.flow.src = src → Disjoint x.ids y.ids) →
        y.flow.src = src → x.flow.src = src → Disjoint y.ids x.ids :=
      fun h hy hx => (h hx hy).symm
    have hold := h.disjoint
    rw [hparts, List.perm_middle.pairwise_iff hsymm, List.pairwise_cons] at hold
    have hmoved : (A ++ kept :: (B ++ [new])).Perm (kept :: new :: (A ++ B)) := by
      refine List.perm_middle.trans (List.Perm.cons kept ?_)
      rw [← List.append_assoc]
      exact List.perm_append_singleton new (A ++ B)
    rw [hparts', hmoved.pairwise_iff hsymm, List.pairwise_cons, List.pairwise_cons]
    refine ⟨fun q hq hks hqs => ?_, fun q hq hns hqs => ?_, hold.2⟩
    · have hps := hkeptSrc ▸ hks
      rw [hkept]
      rcases List.mem_cons.1 hq with rfl | hq
      · rw [hnew]
        exact Finset.sdiff_disjoint
      · exact (hold.1 q hq hps hqs).mono_left Finset.sdiff_subset
    · have hps := hnewSrc ▸ hns
      rw [hnew]
      exact (hold.1 q hq hps hqs).mono_left (hids hps).1
  · rw [← h.union id]
    constructor
    · rintro ⟨q, hq, hsrc, hid⟩
      rcases hmem q hq hsrc with ⟨hq, -⟩ | ⟨hps, rfl | rfl⟩
      · exact ⟨q, hq, hsrc, hid⟩
      · rw [hkept] at hid
        exact ⟨p, hpmem, hps, (Finset.mem_sdiff.1 hid).1⟩
      · rw [hnew] at hid
        exact ⟨p, hpmem, hps, (hids hps).1 hid⟩
    · rintro ⟨q, hq, hsrc, hid⟩
      rw [hparts] at hq
      rw [hparts']
      rcases List.mem_append.1 hq with hq | hq
      · exact ⟨q, List.mem_append_left _ hq, hsrc, hid⟩
      · rcases List.mem_cons.1 hq with rfl | hq
        · by_cases hin : id ∈ ids
          · exact ⟨new, by simp, hnewSrc.trans hsrc, hnew ▸ hin⟩
          · exact ⟨kept, by simp, hkeptSrc.trans hsrc, hkept ▸ Finset.mem_sdiff.2 ⟨hid, hin⟩⟩
        · exact ⟨q, by simp [hq], hsrc, hid⟩
  · rcases hmem q hq hsrc with ⟨hq, -⟩ | ⟨hps, rfl | rfl⟩
    · exact h.packetId q hq hsrc
    · obtain ⟨id, hid, hpid⟩ := h.packetId p hpmem hps
      rw [hkept, hkeptFlow]
      simp only [Pathfinder.carrying, hpid, Option.any_some, decide_eq_true_eq]
      split_ifs with hin
      · exact firstId_mem (hids hps).2.2
      · exact ⟨id, Finset.mem_sdiff.2 ⟨hid, hin⟩, rfl⟩
    · rw [hnew, hnewFlow]
      exact firstId_mem (hids hps).2.1
  · rcases hmem q hq hsrc with ⟨hq, -⟩ | ⟨hps, rfl | rfl⟩
    · exact h.dsts q hq hsrc dst
    · rw [hkept, hkeptFlow, mem_carrying_dsts hpf, h.dsts p hpmem hps, hps]
      refine and_iff_right_of_imp ?_
      rintro ⟨id, hid, hsends⟩
      exact ⟨id, (Finset.mem_sdiff.1 hid).1, hsends⟩
    · rw [hnew, hnewFlow, mem_carrying_dsts hpf, h.dsts p hpmem hps, hps]
      refine and_iff_right_of_imp ?_
      rintro ⟨id, hid, hsends⟩
      exact ⟨id, (hids hps).1 hid, hsends⟩

/-! ## The first state -/

/-- Before the first split each source has one part, which carries all it sends. -/
theorem unsplit_parts (h : pf.Holds calls) :
    pf.unsplit.parts = pf.flows.map fun f => ⟨f, pf.idsFrom f.src⟩ := by
  rw [Pathfinder.unsplit]
  refine List.ext_getElem (by simp) fun k hk hk' => ?_
  have hlt : k < pf.flows.length := by simpa using hk'
  simp only [List.getElem_map, List.getElem_zipIdx, Nat.zero_add, Part.mk.injEq, true_and]
  refine if_pos ?_
  -- no flow before this one has its source
  have hfind : pf.flows.findIdx (fun g => g.src = pf.flows[k].src) < pf.flows.length :=
    List.findIdx_lt_length_of_exists ⟨_, List.getElem_mem hlt, decide_eq_true rfl⟩
  have hsame := List.findIdx_getElem (w := hfind)
  refine (List.getElem?_inj (by simpa using hfind) h.nodup).1 ?_
  rw [List.getElem?_map, List.getElem?_map, List.getElem?_eq_getElem hfind,
    List.getElem?_eq_getElem hlt]
  simpa using hsame

theorem mem_idsFrom (h : pf.Holds calls) : id ∈ pf.idsFrom src ↔ ∃ dst, Sends calls src dst id := by
  simp only [Pathfinder.idsFrom, List.mem_toFinset, List.mem_map, List.mem_filter,
    decide_eq_true_eq, ← h.sends]
  constructor
  · rintro ⟨⟨x, y, z⟩, ⟨hmem, rfl⟩, rfl⟩
    exact ⟨y, hmem⟩
  · rintro ⟨dst, hmem⟩
    exact ⟨_, ⟨hmem, rfl⟩, rfl⟩

def SendsPackets (calls : List FlowCall) (src : PhysPort) : Prop :=
  ∀ c ∈ calls, c.src = src → c.packetId.isSome = true

theorem unsplit_sound (h : pf.Holds calls) (hsrc : SendsPackets calls src) :
    PartsSound calls src pf.unsplit := by
  have hparts := unsplit_parts h
  have hmem : ∀ p ∈ pf.unsplit.parts, p.flow ∈ pf.flows ∧ p.ids = pf.idsFrom p.flow.src := by
    intro p hp
    rw [hparts] at hp
    obtain ⟨f, hf, rfl⟩ := List.mem_map.1 hp
    exact ⟨hf, rfl⟩
  have hpid : ∀ p ∈ pf.unsplit.parts, p.flow.src = src →
      ∃ id ∈ p.ids, p.flow.packetId = some id := by
    rintro p hp rfl
    obtain ⟨hf, hids⟩ := hmem p hp
    obtain ⟨c, hc, hcs, hcid⟩ := h.packetId p.flow hf
    obtain ⟨id, hid⟩ := Option.isSome_iff_exists.1 (hsrc c hc hcs)
    refine ⟨id, ?_, hcid ▸ hid⟩
    rw [hids, mem_idsFrom h]
    exact ⟨c.dst, c, hc, hcs, rfl, hid⟩
  refine ⟨fun k => ?_, fun p hp hps => ?_, ?_, fun id => ?_, hpid, fun p hp hps dst => ?_⟩
  · rw [hparts]
    simp only [Pathfinder.unsplit, List.mem_map, List.mem_filter, decide_eq_true_eq,
      List.getElem?_map, Option.map_eq_some_iff]
    constructor
    · rintro ⟨⟨f, j⟩, ⟨hf, hfs⟩, rfl⟩
      exact ⟨_, ⟨f, List.mem_zipIdx_iff_getElem?.1 hf, rfl⟩, hfs⟩
    · rintro ⟨_, ⟨f, hf, rfl⟩, hfs⟩
      exact ⟨(f, k), ⟨List.mem_zipIdx_iff_getElem?.2 hf, hfs⟩, rfl⟩
  · obtain ⟨id, hid, -⟩ := hpid p hp hps
    exact ⟨id, hid⟩
  · rw [hparts, List.pairwise_map]
    have hne : pf.flows.Pairwise fun f g => f.src ≠ g.src := List.pairwise_map.1 h.nodup
    exact hne.imp fun hne hf hg => absurd (hf.trans hg.symm) hne
  · rw [← mem_idsFrom h]
    constructor
    · rintro ⟨p, hp, rfl, hid⟩
      rwa [(hmem p hp).2] at hid
    · intro hid
      obtain ⟨dst, c, hc, hcs, -⟩ := (mem_idsFrom h).1 hid
      obtain ⟨f, hf, hfs⟩ := List.mem_map.1 ((h.flows src).2 ⟨c, hc, hcs⟩)
      refine ⟨⟨f, pf.idsFrom f.src⟩, ?_, hfs, hfs ▸ hid⟩
      rw [hparts]
      exact List.mem_map_of_mem hf
  · obtain ⟨hf, hids⟩ := hmem p hp
    rw [h.dsts p.flow hf, hids, hps]
    constructor
    · rintro ⟨c, hc, hcs, hcd⟩
      obtain ⟨id, hid⟩ := Option.isSome_iff_exists.1 (hsrc c hc hcs)
      exact ⟨id, (mem_idsFrom h).2 ⟨c.dst, c, hc, hcs, rfl, hid⟩, c, hc, hcs, hcd, hid⟩
    · rintro ⟨id, -, c, hc, hcs, hcd, -⟩
      exact ⟨c, hc, hcs, hcd⟩

theorem routeState_sound (h : pf.Holds calls) (hsrc : SendsPackets calls src) :
    PartsSound calls src pf.routeState := by
  have hrun : ∀ n ≤ pf.flows.length,
      PartsSound calls src ((List.range n).foldl pf.splitPinned pf.unsplit) ∧
        ∀ k, n ≤ k → k < pf.flows.length →
          ((List.range n).foldl pf.splitPinned pf.unsplit).parts[k]? = pf.unsplit.parts[k]? := by
    intro n hn
    induction n with
    | zero => exact ⟨unsplit_sound h hsrc, fun k _ _ => rfl⟩
    | succ n ih =>
      obtain ⟨hsound, hkeep⟩ := ih (Nat.le_of_succ_le hn)
      rw [List.range_succ, List.foldl_concat]
      generalize (List.range n).foldl pf.splitPinned pf.unsplit = st at hsound hkeep
      have hp : st.parts[n]? = some ⟨pf.flows[n], pf.idsFrom pf.flows[n].src⟩ := by
        rw [hkeep n le_rfl hn, unsplit_parts h, List.getElem?_map, List.getElem?_eq_getElem hn]
        rfl
      rw [Pathfinder.splitPinned, hp]
      simp only
      split_ifs with hpinned
      · refine ⟨splitPart_sound h hsound hp fun hfs => ?_, fun k hk hlt => ?_⟩
        · have hprio : pf.flows[n].isPriorityFlow = true := by
            have hpin := hpinned.1
            rw [Pathfinder.isPinned, Bool.and_eq_true] at hpin
            exact hpin.1
          obtain ⟨id, hid⟩ := h.priority _ (List.getElem_mem hn) hprio fun c hc hcs =>
            hsrc c hc (hcs.trans hfs)
          refine ⟨Finset.filter_subset _ _, hpinned.2, id, Finset.mem_sdiff.2
            ⟨(mem_idsFrom h).2 (h.priorityIds _ id hid), fun hmem => ?_⟩⟩
          exact (Finset.mem_filter.1 hmem).2.1 hid
        · obtain ⟨A, B, kept, new, hparts, hparts', -, hA, -⟩ := splitPart_cases pf hp
            (pf.pinnedOthers pf.flows[n].src)
          have hlen : k < (A ++ kept :: B).length := by
            have hB : (A ++ kept :: B).length = st.parts.length := by rw [hparts]; simp
            rw [hB]
            have hk' := hkeep k (Nat.le_of_succ_le hk) hlt
            rw [unsplit_parts h, List.getElem?_map, List.getElem?_eq_getElem hlt,
              Option.map_some] at hk'
            exact (List.getElem?_eq_some_iff.1 hk').1
          rw [← hkeep k (Nat.le_of_succ_le hk) hlt, hparts', hparts, ← List.cons_append,
            ← List.append_assoc, List.getElem?_append_left hlen,
            List.getElem?_append_right (by omega), List.getElem?_append_right (by omega)]
          obtain ⟨j, hj⟩ : ∃ j, k - A.length = j + 1 := ⟨k - A.length - 1, by omega⟩
          rw [hj, List.getElem?_cons_succ, List.getElem?_cons_succ]
      · exact ⟨hsound, fun k hk hlt => hkeep k (Nat.le_of_succ_le hk) hlt⟩
  exact (hrun _ le_rfl).1

/-! ## The faults of a routing -/

structure Beside (st st' : RouteState) : Prop where
  parts : st'.parts = st.parts
  partsOf : st'.partsOf = st.partsOf
  groupedFlows : st'.groupedFlows = st.groupedFlows
  splitsOf : st'.splitsOf.length = st.splitsOf.length
  partSplits : st'.partSplits.length = st.partSplits.length

/-- What faults do: splits that leave both parts an id, and changes beside the parts. -/
inductive Splits (pf : Pathfinder) (st : RouteState) : RouteState → Prop
  | refl : Splits pf st st
  | split {st' : RouteState} {k : ℕ} {p : Part} {ids : Finset ℕ} : Splits pf st st' →
      st'.parts[k]? = some p → ids ⊆ p.ids → ids.Nonempty → (p.ids \ ids).Nonempty →
      Splits pf st (pf.splitPart st' k ids)
  | beside {st' st'' : RouteState} : Splits pf st st' → Beside st' st'' → Splits pf st st''

theorem partWith_spec {k : ℕ} (h : st.partWith src id = some k) :
    ∃ p, st.parts[k]? = some p ∧ id ∈ p.ids := by
  have hany := List.find?_some h
  cases hp : st.parts[k]? with
  | none => simp [hp] at hany
  | some p => exact ⟨p, rfl, by simpa [hp] using hany⟩

variable {st' : RouteState}

theorem Splits.applySplit (h : Splits pf st st') (treeOf : ℕ → Tree) (n : ℕ) (split : TreeSplit) :
    Splits pf st (pf.applySplit treeOf (st', n) split).1 := by
  rw [Pathfinder.applySplit]
  simp only
  split
  · rename_i flow other hflow hother
    obtain ⟨p, hp, ha⟩ := partWith_spec hflow
    obtain ⟨q, hq, hb⟩ := partWith_spec hother
    by_cases hnode : split.apart.any (fun x => decide (x ∉ pf.nodes)) = true
    · rw [if_pos hnode]
      exact h
    · rw [if_neg hnode, hp]
      dsimp only
      generalize hmove : (pf.idsApart && decide (flow = other) && split.apart.isNone &&
        !p.flow.isPriorityFlow && pf.inseparable split p.flow (treeOf flow)) = move
      have hsplit : Splits pf st
          (if move = true then pf.splitPart st' flow {split.b} else st') := by
        split_ifs with hm
        · rw [hm] at hmove
          simp only [Bool.and_eq_true, decide_eq_true_eq, Option.isNone_iff_eq_none] at hmove
          obtain ⟨⟨⟨⟨-, rfl⟩, hapart⟩, -⟩, -⟩ := hmove
          obtain rfl : p = q := Option.some.inj (hp.symm.trans hq)
          refine h.split hp (Finset.singleton_subset_iff.2 hb) (Finset.singleton_nonempty _)
            ⟨split.a, Finset.mem_sdiff.2 ⟨ha, ?_⟩⟩
          rw [Finset.mem_singleton]
          exact split.distinct hapart
        · exact h
      generalize (if move = true then pf.splitPart st' flow {split.b} else st') = after at hsplit ⊢
      split_ifs
      all_goals exact hsplit.beside ⟨rfl, rfl, rfl, by simp, by simp⟩
  · exact h

theorem Splits.splitOwn (h : Splits pf st st') (otherIds : Finset ℕ) (k : ℕ) :
    Splits pf st (pf.splitOwn otherIds st' k) := by
  rw [Pathfinder.splitOwn]
  split
  · exact h
  · rename_i p hp
    simp only
    split_ifs with hown
    · simp only [Bool.and_eq_true, decide_eq_true_eq] at hown
      obtain ⟨⟨-, hne⟩, hlt⟩ := hown
      refine h.split hp Finset.sdiff_subset hne ?_
      rw [Finset.sdiff_nonempty]
      exact fun hsub => absurd (Finset.card_le_card hsub) (not_le.2 hlt)
    · exact h

theorem Splits.splitOwnIds (h : Splits pf st st') (pair : PhysPort × PhysPort) :
    Splits pf st (pf.splitOwnIds st' pair) := by
  refine List.foldlRecOn _ _ h fun now hnow p _ => ?_
  split_ifs
  · exact hnow
  · exact List.foldlRecOn _ _ hnow fun now hnow k _ => hnow.splitOwn _ k

theorem Splits.applyApart (h : Splits pf st st') (b : Bool) (pair : PhysPort × PhysPort) :
    Splits pf st (pf.applyApart (st', b) pair).1 := by
  have hnext : Splits pf st { st' with apartSources := insert pair st'.apartSources } :=
    h.beside ⟨rfl, rfl, rfl, rfl, rfl⟩
  rw [Pathfinder.applyApart]
  split_ifs
  exacts [h, hnext.splitOwnIds pair, hnext]

theorem Splits.applyTogether (h : Splits pf st st') (b : Bool) (pair : PhysPort × PhysPort) :
    Splits pf st (pf.applyTogether (st', b) pair).1 := by
  have hnext : Splits pf st { st' with togetherSources := insert pair st'.togetherSources } :=
    h.beside ⟨rfl, rfl, rfl, rfl, rfl⟩
  rw [Pathfinder.applyTogether]
  split_ifs
  exacts [h, hnext.splitOwnIds pair]

theorem Splits.applyUntrunk (h : Splits pf st st') (n : ℕ) (p : PhysPort) :
    Splits pf st (Pathfinder.applyUntrunk (st', n) p).1 := by
  rw [Pathfinder.applyUntrunk]
  split_ifs
  exacts [h, h.beside ⟨rfl, rfl, rfl, rfl, rfl⟩]

/-- **The faults of a routing split only parts that keep an id.** -/
theorem applyRoutingFaults_splits (pf : Pathfinder) (treeOf : ℕ → Tree) (st : RouteState)
    (faults : RoutingFaults) : Splits pf st (pf.applyRoutingFaults treeOf st faults).1 := by
  rw [Pathfinder.applyRoutingFaults]
  have hsplits : Splits pf st (faults.splits.foldl (pf.applySplit treeOf) (st, 0)).1 :=
    List.foldlRecOn (motive := fun s : RouteState × ℕ => Splits pf st s.1) _ _ .refl
      fun s hs split _ => hs.applySplit treeOf s.2 split
  have hapart : ∀ {now : RouteState}, Splits pf st now →
      Splits pf st (faults.apart.foldl pf.applyApart (now, false)).1 := fun h =>
    List.foldlRecOn (motive := fun s : RouteState × Bool => Splits pf st s.1) _ _ h
      fun s hs pair _ => hs.applyApart s.2 pair
  have htogether : ∀ {s : RouteState × Bool}, Splits pf st s.1 →
      Splits pf st (faults.together.foldl pf.applyTogether s).1 := fun h =>
    List.foldlRecOn (motive := fun s : RouteState × Bool => Splits pf st s.1) _ _ h
      fun s hs pair _ => hs.applyTogether s.2 pair
  exact List.foldlRecOn (motive := fun s : RouteState × ℕ => Splits pf st s.1) _ _
    (htogether (hapart (hsplits.beside ⟨rfl, rfl, rfl, rfl, rfl⟩)))
    fun s hs p _ => hs.applyUntrunk s.2 p

theorem Splits.sound (hpf : pf.Holds calls) (h : PartsSound calls src st)
    (hsplits : Splits pf st st') : PartsSound calls src st' := by
  induction hsplits with
  | refl => exact h
  | split _ hp hsub hne hrest ih => exact splitPart_sound hpf ih hp fun _ => ⟨hsub, hne, hrest⟩
  | beside _ hbeside ih => exact ih.congr hbeside.parts hbeside.partsOf

/-! ## The states of a search -/

/-- The states reached: faults are applied after an iteration, in which the trees took any shape;
between the iterations id splits are dropped, parts go first in their groups, and joins are ruled
out. -/
inductive Reached (pf : Pathfinder) : RouteState → Prop
  | start : Reached pf pf.routeState
  | faults {st : RouteState} (treeOf : ℕ → Tree) (faults : RoutingFaults) : Reached pf st →
      Reached pf (pf.applyRoutingFaults treeOf st faults).1
  | dropSplits {st : RouteState} : Reached pf st →
      Reached pf { st with splitsOf := st.splitsOf.map fun _ => ∅ }
  | reorder {st : RouteState} (groups : List (ℤ × List ℕ)) (noJoin : Finset (ℕ × ℕ)) :
      Reached pf st → List.Forall₂ (fun g h => g.1 = h.1 ∧ g.2.Perm h.2) st.groupedFlows groups →
      Reached pf { st with groupedFlows := groups, noJoin := noJoin }

/-- **Splitting a source's tree loses no packet**: in every state reached, the parts of a source no
circuit flow leaves carry what it sends, each packet once, to every destination that takes it. -/
theorem parts_sound (pf : Pathfinder) {calls : List FlowCall} {st : RouteState}
    (h : Reached (pf.withFlows calls) st) {src : PhysPort} (hsrc : SendsPackets calls src) :
    PartsSound calls src st := by
  have hpf := Pathfinder.Holds.withFlows pf calls
  induction h with
  | start => exact routeState_sound hpf hsrc
  | faults treeOf faults _ ih => exact (applyRoutingFaults_splits _ treeOf _ faults).sound hpf ih
  | dropSplits _ ih => exact ih.congr rfl rfl
  | reorder groups noJoin _ _ ih => exact ih.congr rfl rfl

/-- Two sources that share a receiver and one id. -/
def sharedCalls : List FlowCall :=
  [⟨⟨⟨0, 0⟩, ⟨.DMA, 0⟩⟩, ⟨⟨1, 2⟩, ⟨.DMA, 0⟩⟩, some 0, false⟩,
    ⟨⟨⟨0, 0⟩, ⟨.DMA, 0⟩⟩, ⟨⟨1, 2⟩, ⟨.DMA, 1⟩⟩, some 1, false⟩,
    ⟨⟨⟨1, 0⟩, ⟨.DMA, 0⟩⟩, ⟨⟨1, 2⟩, ⟨.DMA, 1⟩⟩, some 1, false⟩]

/-- Their trees wait on each other, and are to meet. -/
def sharedFaults : RoutingFaults := { together := [(⟨⟨0, 0⟩, ⟨.DMA, 0⟩⟩, ⟨⟨1, 0⟩, ⟨.DMA, 0⟩⟩)] }

theorem sharedCalls_sound : PartsSound sharedCalls ⟨⟨0, 0⟩, ⟨.DMA, 0⟩⟩
    ((Pathfinder.withFlows {} sharedCalls).applyRoutingFaults (fun _ => [])
      (Pathfinder.withFlows {} sharedCalls).routeState sharedFaults).1 :=
  parts_sound {} (.faults _ _ .start) (by simp [SendsPackets, sharedCalls])

/-- The id the other source does not send routes apart. -/
example : (((Pathfinder.withFlows {} sharedCalls).applyRoutingFaults (fun _ => [])
    (Pathfinder.withFlows {} sharedCalls).routeState sharedFaults).1.parts.map Part.ids) =
      [{1}, {1}, {0}] := by
  decide

/-! ## The vectors of the parts -/

/-- What is kept for the parts is kept for each, and each part is in one group. -/
structure InStep (st : RouteState) : Prop where
  splitsOf : st.splitsOf.length = st.parts.length
  partSplits : st.partSplits.length = st.parts.length
  groups : (st.groupedFlows.flatMap Prod.snd).Perm (List.range st.parts.length)

theorem pushGroup_perm (group : ℤ) (k : ℕ) (gs : List (ℤ × List ℕ)) :
    ((pushGroup group k gs).flatMap Prod.snd).Perm (gs.flatMap Prod.snd ++ [k]) := by
  induction gs with
  | nil => exact .refl _
  | cons g gs ih =>
    rw [pushGroup]
    split_ifs
    · simp only [List.flatMap_cons, List.append_assoc]
      exact List.perm_append_comm.append_left g.2
    · simp only [List.flatMap_cons, List.append_assoc]
      exact ih.append_left g.2

theorem groups_perm {gs hs : List (ℤ × List ℕ)}
    (h : List.Forall₂ (fun g h => g.1 = h.1 ∧ g.2.Perm h.2) gs hs) :
    (hs.flatMap Prod.snd).Perm (gs.flatMap Prod.snd) := by
  induction h with
  | nil => exact .refl _
  | cons hgh _ ih =>
    rw [List.flatMap_cons, List.flatMap_cons]
    exact hgh.2.symm.append ih

theorem unsplit_inStep (pf : Pathfinder) : InStep pf.unsplit where
  splitsOf := by simp [Pathfinder.unsplit]
  partSplits := by simp [Pathfinder.unsplit]
  groups := by
    have hfold : ∀ (l : List (Flow × ℕ)) (gs : List (ℤ × List ℕ)),
        ((l.foldl (fun gs f => pushGroup (pf.groupOf f.1) f.2 gs) gs).flatMap Prod.snd).Perm
          (gs.flatMap Prod.snd ++ l.map Prod.snd) := by
      intro l
      induction l with
      | nil => simp
      | cons f l ih =>
        intro gs
        refine (ih _).trans ?_
        rw [List.map_cons, ← List.singleton_append, ← List.append_assoc]
        exact (pushGroup_perm _ _ _).append_right _
    refine (hfold _ []).trans (.of_eq ?_)
    rw [List.flatMap_nil, List.nil_append, List.zipIdx_map_snd, Pathfinder.unsplit,
      List.length_map, List.length_zipIdx, List.range_eq_range']

theorem splitPart_inStep (h : InStep st) (k : ℕ) (ids : Finset ℕ) :
    InStep (pf.splitPart st k ids) := by
  rw [Pathfinder.splitPart]
  split
  · exact h
  · rename_i p hp
    have hlen : ∀ x y : Part, (st.parts.set k x ++ [y]).length = st.parts.length + 1 := by simp
    refine ⟨?_, ?_, ?_⟩
    · simp [h.splitsOf]
    · simp [h.partSplits]
    · show ((pushGroup _ _ _).flatMap Prod.snd).Perm (List.range (st.parts.set k _ ++ [_]).length)
      rw [hlen, List.range_succ]
      exact (pushGroup_perm _ _ _).trans (h.groups.append_right _)

theorem splits_inStep (h : InStep st) (hsplits : Splits pf st st') : InStep st' := by
  induction hsplits with
  | refl => exact h
  | split _ _ _ _ _ ih => exact splitPart_inStep ih _ _
  | beside _ hbeside ih =>
    obtain ⟨hparts, -, hgroups, hsplitsOf, hpartSplits⟩ := hbeside
    refine ⟨?_, ?_, ?_⟩
    · rw [hsplitsOf, hparts, ih.splitsOf]
    · rw [hpartSplits, hparts, ih.partSplits]
    · rw [hgroups, hparts]
      exact ih.groups

/-- **Each part is routed**, and what is kept for the parts stays in step with them. -/
theorem Reached.inStep (h : Reached pf st) : InStep st := by
  induction h with
  | start =>
    refine List.foldlRecOn _ _ (unsplit_inStep pf) fun now hnow k _ => ?_
    rw [Pathfinder.splitPinned]
    split
    · exact hnow
    · split_ifs
      exacts [splitPart_inStep hnow _ _, hnow]
  | faults treeOf faults _ ih => exact splits_inStep ih (applyRoutingFaults_splits _ treeOf _ faults)
  | dropSplits _ ih => exact ⟨(List.length_map _).trans ih.splitsOf, ih.partSplits, ih.groups⟩
  | reorder groups noJoin _ hgroups ih =>
    refine ⟨ih.splitsOf, ih.partSplits, List.Perm.trans ?_ ih.groups⟩
    exact groups_perm hgroups

theorem sharedCalls_inStep : InStep ((Pathfinder.withFlows {} sharedCalls).applyRoutingFaults
    (fun _ => []) (Pathfinder.withFlows {} sharedCalls).routeState sharedFaults).1 :=
  Reached.inStep (.faults _ _ .start)

end MlirAie.Route
