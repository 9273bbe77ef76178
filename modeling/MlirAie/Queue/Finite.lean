import MlirAie.Queue.Guard

/-!
# Finitely many states

The analysis of a region makes no state longer than the longest it starts from, or the depth of the
queue, and no state twice; so the passes over a loop are enough.

* `mem_statesUpTo`: the states of bounded length;
* **`upTo_analyze`**: the analysis keeps the bound; **`nodup_analyze`**: and repeats nothing.
-/

namespace MlirAie.Queue

open MlirAie.Lib

namespace ChannelAnalysis

variable {A : ChannelAnalysis} {states : States}

theorem mem_dedupe {q : ChannelState} : q ∈ dedupe states ↔ q ∈ states := by
  simp [dedupe]

theorem mem_flagLists {n : ℕ} {l : List Bool} (h : l.length ≤ n) : l ∈ flagLists n := by
  induction n generalizing l with
  | zero => simpa [flagLists] using h
  | succ n ih =>
    cases l with
    | nil => simp [flagLists]
    | cons b l =>
      have hl : l ∈ flagLists n := ih (by simpa using h)
      rw [flagLists]
      refine List.mem_cons_of_mem _ (List.mem_flatMap.2 ⟨l, hl, ?_⟩)
      cases b <;> simp

theorem length_of_mem_flagLists {n : ℕ} {l : List Bool} (h : l ∈ flagLists n) : l.length ≤ n := by
  induction n generalizing l with
  | zero => simp_all [flagLists]
  | succ n ih =>
    rw [flagLists] at h
    rcases List.mem_cons.1 h with rfl | h
    · exact Nat.zero_le _
    · obtain ⟨t, ht, h⟩ := List.mem_flatMap.1 h
      have := ih ht
      rcases List.mem_pair.1 h with rfl | rfl <;> simpa using this

theorem mem_statesUpTo {n : ℕ} {q : ChannelState} : q ∈ statesUpTo n ↔ q.pushes.length ≤ n := by
  obtain ⟨pushes, unknownTokens⟩ := q
  rw [statesUpTo, List.mem_flatMap]
  refine ⟨?_, fun h => ⟨pushes, mem_flagLists h, by cases unknownTokens <;> simp⟩⟩
  rintro ⟨l, hl, hmem⟩
  have : pushes = l := by rcases List.mem_pair.1 hmem with h | h <;> cases h <;> rfl
  exact this ▸ length_of_mem_flagLists hl

theorem depth_le_longest (depth : ℕ) (states : States) : depth ≤ longest depth states := by
  induction states with
  | nil => exact le_rfl
  | cons q states ih => exact ih.trans (le_max_right _ _)

theorem length_le_longest {q : ChannelState} (depth : ℕ) (h : q ∈ states) :
    q.pushes.length ≤ longest depth states := by
  induction states with
  | nil => cases h
  | cons q' states ih =>
    rcases List.mem_cons.1 h with rfl | h
    · exact le_max_left _ _
    · exact (ih h).trans (le_max_right _ _)

/-- No state is longer than `n`. -/
def UpTo (n : ℕ) (states : States) : Prop := ∀ q ∈ states, q.pushes.length ≤ n

theorem length_awaitToken (q : ChannelState) : (awaitToken q).pushes.length ≤ q.pushes.length := by
  unfold awaitToken
  split_ifs
  · exact le_rfl
  split
  · exact le_rfl
  · rename_i b newer hdrop
    have hlen := (List.dropWhile_sublist (!·) (l := q.pushes)).length_le
    rw [hdrop, List.length_cons] at hlen
    exact (Nat.le_succ _).trans hlen

theorem length_noteSpaceGuaranteed (q : ChannelState) (depth : ℕ) :
    (noteSpaceGuaranteed q depth).pushes.length ≤ q.pushes.length := by
  unfold noteSpaceGuaranteed
  split_ifs
  · dsimp only
    split_ifs
    · rw [List.length_map, List.length_drop]
      omega
    · rw [List.length_drop]
      omega
  · exact le_rfl

theorem length_pushState (hdepth : 0 < A.depth) (b : Bool) {q : ChannelState} {n : ℕ}
    (hn : A.depth ≤ n) (hq : q.pushes.length ≤ n) : (A.pushState b q).pushes.length ≤ n := by
  rw [pushState, push, List.length_append, List.length_singleton]
  split_ifs with hover
  · simp only [wouldOverflow, Bool.and_eq_true, decide_eq_true_eq] at hover
    have hlen : (noteSpaceGuaranteed q A.depth).pushes.length = A.depth - 1 := by
      rw [noteSpaceGuaranteed, if_pos ⟨hdepth, by omega⟩]
      dsimp only
      split_ifs
      · rw [List.length_map, List.length_drop]
        omega
      · rw [List.length_drop]
        omega
    omega
  · simp only [wouldOverflow, Bool.and_eq_true, bne_iff_ne, decide_eq_true_eq] at hover
    omega

theorem upTo_dedupe_map {n : ℕ} {f : ChannelState → ChannelState} (h : UpTo n states)
    (hf : ∀ q, q.pushes.length ≤ n → (f q).pushes.length ≤ n) : UpTo n (dedupe (states.map f)) := by
  intro q hq
  obtain ⟨q, hmem, rfl⟩ := List.mem_map.1 (mem_dedupe.1 hq)
  exact hf q (h q hmem)

theorem upTo_stepOp (hdepth : 0 < A.depth) (o : SeqOp) {n : ℕ} (hn : A.depth ≤ n)
    (h : UpTo n states) : UpTo n (A.stepOp o states).1 := by
  cases o with
  | poll p =>
    rw [stepOp]
    split_ifs
    · exact upTo_dedupe_map h fun q hq => (length_noteSpaceGuaranteed q _).trans hq
    · exact h
  | effect id e =>
    rw [stepOp]
    cases A.channelEffectOf (.effect id e) with
    | Ignore => exact h
    | Await _ => exact upTo_dedupe_map h fun q hq => (length_awaitToken q).trans hq
    | Push _ b => exact upTo_dedupe_map h fun q hq => length_pushState hdepth b hn hq

theorem upTo_unknownRegion (nested : Region) {n : ℕ} (hn : A.depth ≤ n) (h : UpTo n states) :
    UpTo n (A.unknownRegion nested states).1 := by
  have hfold (ops : List SeqOp) (r : States × List ℕ) (hr : UpTo n r.1) :
      UpTo n (ops.foldl A.unknownStep r).1 := by
    induction ops generalizing r with
    | nil => exact hr
    | cons o ops ih =>
      refine ih _ ?_
      unfold unknownStep
      split
      · rename_i id key b
        by_cases hkey : key = A.key
        · rw [if_pos hkey]
          intro q hq
          obtain ⟨_, -, rfl⟩ := List.mem_map.1 hq
          exact (List.length_replicate ..).trans_le hn
        · rw [if_neg hkey]
          exact hr
      · exact hr
  intro q hq
  exact hfold nested.walk (states, []) h q (mem_dedupe.1 hq)

theorem upTo_analyze (hdepth : 0 < A.depth) (region : Region) {n : ℕ} (hn : A.depth ≤ n)
    (h : UpTo n states) : UpTo n (A.analyze region states).1 := by
  induction region generalizing states with
  | done => exact h
  | op o rest ih =>
    rw [analyze]
    split_ifs
    · exact ih (upTo_stepOp hdepth o hn h)
    · exact ih h
  | scfFor bounds body rest ihb ihr =>
    rw [analyze]
    split_ifs
    · exact ihr h
    · exact ihr (closeFrom_forall (G := fun q : ChannelState => q.pushes.length ≤ n)
        (fun q hq => ihb (List.forall_mem_singleton.2 hq)) _ _ h)
  | scfIf thenRegion elseRegion rest iht ihe ihr =>
    rw [analyze]
    split_ifs
    · exact ihr h
    · refine ihr fun q hq => ?_
      rcases mem_appendNew.1 hq with hq | hq
      · exact iht h q hq
      · exact ihe h q hq
  | unknown nested rest _ ihr =>
    rw [analyze]
    split_ifs
    · exact ihr (upTo_unknownRegion nested hn h)
    · exact ihr h

theorem nodup_dedupe (states : States) : (dedupe states).Nodup := nodup_appendNew List.nodup_nil

theorem nodup_stepOp (o : SeqOp) (h : states.Nodup) : (A.stepOp o states).1.Nodup := by
  cases o with
  | poll p =>
    rw [stepOp]
    split_ifs
    · exact nodup_dedupe _
    · exact h
  | effect id e =>
    rw [stepOp]
    cases A.channelEffectOf (.effect id e) with
    | Ignore => exact h
    | Await _ => exact nodup_dedupe _
    | Push _ b => exact nodup_dedupe _

theorem nodup_analyze (region : Region) (h : states.Nodup) :
    (A.analyze region states).1.Nodup := by
  induction region generalizing states with
  | done => exact h
  | op o rest ih =>
    rw [analyze]
    split_ifs
    · exact ih (nodup_stepOp o h)
    · exact ih h
  | scfFor bounds body rest ihb ihr =>
    rw [analyze]
    split_ifs
    · exact ihr h
    · exact ihr (nodup_closeFrom _ _ h)
  | scfIf thenRegion elseRegion rest iht ihe ihr =>
    rw [analyze]
    split_ifs
    · exact ihr h
    · exact ihr (nodup_appendNew (iht h))
  | unknown nested rest _ ihr =>
    rw [analyze]
    split_ifs
    · exact ihr (nodup_dedupe _)
    · exact ihr h

end ChannelAnalysis

end MlirAie.Queue
