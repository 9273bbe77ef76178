import MlirAie.Cert.Pages

/-!
# Merging chain writes

Consecutive writes of chains become one: the descriptors of the earlier chain go to the start of
the later one, and the earlier write and chain are erased.

* `blocks`: the job as cells, the chains it writes, with what stands between them;
* **`merge_step`**, **`exists_mergeConsecutive`**: the pattern merges cells, and any two it may;
* **`mergeConsecutive_preserves_iff`**: when all runs of the pattern keep what the job does.
-/

namespace MlirAie.Cert

open Lib

def CertOp.stopsMerge : CertOp → Bool
  | .write32 _ _ => true
  | .maskWrite32 _ _ _ => true
  | .maskPoll32 _ _ _ => true
  | .applyOffset57 _ _ _ => true
  | .waitTCTS _ _ _ => true
  | _ => false

/-- The last chain write of what precedes an operation, the nearest first, with what stands
between, and what precedes it. -/
def prevWriteDesSync : List CertOp → Option (List CertOp × String × List CertOp)
  | [] => none
  | o :: before =>
    if o.stopsMerge then none
    else
      match o.sync with
      | some symbol => some ([], symbol, before)
      | none => (prevWriteDesSync before).map fun r => (o :: r.1, r.2)

/-- The bytes of a chain, as a 32-bit number. -/
def chainSize (bds : List CertUcDmaBd) : ℕ := bds.foldl (fun n bd => (n + bd.length * 4) % 2 ^ 32) 0

/-- Merges the chain write before the operation at `i` into it. -/
def mergeConsecutive (c : CertCode) (i : ℕ) : Option CertCode := do
  let op ← c.job[i]?
  let symName ← op.sync
  let (between, prevSymName, before) ← prevWriteDesSync (c.job.take i).reverse
  let chain ← c.chains symName
  let prevChain ← c.chains prevSymName
  if (chainSize chain + chainSize prevChain) % 2 ^ 32 ≥ certPageSize then none
  else
    let linked := prevChain.map fun bd => { bd with nextBd := true }
    return {
      chains := Function.update (Function.update c.chains symName (some (linked ++ chain)))
        prevSymName none
      job := before.reverse ++ between.reverse ++ c.job.drop i }

/-! ## What the pattern matches -/

theorem sync_eq_some {o : CertOp} {s : String} : o.sync = some s ↔ o = .ucDmaWriteDesSync s := by
  cases o <;> simp [CertOp.sync]

def CertOp.Passed (o : CertOp) : Prop := o.stopsMerge = false ∧ o.sync = none

theorem prevWriteDesSync_eq_some {l between before : List CertOp} {s : String} :
    prevWriteDesSync l = some (between, s, before) ↔
      l = between ++ .ucDmaWriteDesSync s :: before ∧ ∀ o ∈ between, o.Passed := by
  induction l generalizing between with
  | nil => simp [prevWriteDesSync]
  | cons o l ih =>
    rw [prevWriteDesSync]
    by_cases hstop : o.stopsMerge = true
    · rw [if_pos hstop]
      constructor
      · intro h
        cases h
      · rintro ⟨heq, hpassed⟩
        cases between with
        | nil =>
          cases heq
          cases hstop
        | cons p between =>
          cases heq
          rw [(hpassed _ List.mem_cons_self).1] at hstop
          cases hstop
    · rw [if_neg hstop]
      cases hsync : o.sync with
      | some s' =>
        obtain rfl := sync_eq_some.1 hsync
        constructor
        · intro h
          cases h
          exact ⟨rfl, fun o ho => (List.not_mem_nil ho).elim⟩
        · rintro ⟨heq, hpassed⟩
          cases between with
          | nil =>
            cases heq
            rfl
          | cons p between =>
            cases heq
            cases (hpassed _ List.mem_cons_self).2
      | none =>
        simp only [Option.map_eq_some_iff, Prod.exists, Prod.mk.injEq]
        constructor
        · rintro ⟨between', s', before', h, rfl, rfl, rfl⟩
          obtain ⟨rfl, hpassed⟩ := ih.1 h
          refine ⟨rfl, fun p hp => ?_⟩
          rcases List.mem_cons.1 hp with rfl | hp
          · exact ⟨by simpa using hstop, hsync⟩
          · exact hpassed p hp
        · rintro ⟨heq, hpassed⟩
          cases between with
          | nil =>
            cases heq
            cases hsync
          | cons p between =>
            cases heq
            exact ⟨between, s, before,
              ih.2 ⟨rfl, fun q hq => hpassed q (List.mem_cons_of_mem _ hq)⟩, rfl, rfl, rfl⟩

/-- The chains once `prev` is moved into `sym`. -/
@[grind =]
def Chains.merged (chains : Chains) (sym prev : String) (bds prevBds : List CertUcDmaBd) : Chains :=
  Function.update (Function.update chains sym
    (some (prevBds.map (fun bd => { bd with nextBd := true }) ++ bds))) prev none

/-- The pattern merges a write of a chain into the next one, past what does not stop it. -/
structure Merges (c : CertCode) (i : ℕ) (c' : CertCode) (before mid post : List CertOp)
    (prev sym : String) (prevBds bds : List CertUcDmaBd) : Prop where
  job : c.job = before ++ .ucDmaWriteDesSync prev :: (mid ++ .ucDmaWriteDesSync sym :: post)
  index : i = before.length + (mid.length + 1)
  passed : ∀ o ∈ mid, o.Passed
  prevChain : c.chains prev = some prevBds
  chain : c.chains sym = some bds
  size : (chainSize bds + chainSize prevBds) % 2 ^ 32 < certPageSize
  result : c' = ⟨c.chains.merged sym prev bds prevBds,
    before ++ (mid ++ .ucDmaWriteDesSync sym :: post)⟩

theorem mergeConsecutive_eq_some {c c' : CertCode} {i : ℕ} : mergeConsecutive c i = some c' ↔
    ∃ before mid post prev sym prevBds bds,
      Merges c i c' before mid post prev sym prevBds bds := by
  constructor
  · intro h
    simp only [mergeConsecutive, bind, Option.bind_eq_some_iff] at h
    obtain ⟨op, hop, sym, hsync, ⟨between, prev, before⟩, hprev, bds, hchain, prevBds, hprevChain,
      h⟩ := h
    obtain rfl := sync_eq_some.1 hsync
    obtain ⟨hlist, hpassed⟩ := prevWriteDesSync_eq_some.1 hprev
    by_cases hsize : (chainSize bds + chainSize prevBds) % 2 ^ 32 ≥ certPageSize
    · simp only [if_pos hsize] at h
      cases h
    · simp only [if_neg hsize] at h
      cases h
      obtain ⟨hi, hget⟩ := List.getElem?_eq_some_iff.1 hop
      have htake : c.job.take i = before.reverse ++ .ucDmaWriteDesSync prev :: between.reverse := by
        rw [← List.reverse_reverse (c.job.take i), hlist]
        simp
      have hdrop : c.job.drop i = .ucDmaWriteDesSync sym :: c.job.drop (i + 1) := by
        rw [List.drop_eq_getElem_cons hi, hget]
      refine ⟨before.reverse, between.reverse, c.job.drop (i + 1), prev, sym, prevBds, bds, ?_, ?_,
        fun o ho => hpassed o (List.mem_reverse.1 ho), hprevChain, hchain, not_le.1 hsize, ?_⟩
      · have hjob := (List.take_append_drop i c.job).symm
        rw [htake, hdrop] at hjob
        exact hjob.trans (by simp)
      · have hlen := congrArg List.length htake
        simp only [List.length_take, List.length_append, List.length_reverse,
          List.length_cons] at hlen ⊢
        omega
      · rw [hdrop, List.append_assoc]
        rfl
  · rintro ⟨before, mid, post, prev, sym, prevBds, bds, h⟩
    have hi : before.length + (mid.length + 1) =
        (before ++ .ucDmaWriteDesSync prev :: mid).length := by simp
    have hjob : c.job =
        (before ++ .ucDmaWriteDesSync prev :: mid) ++ .ucDmaWriteDesSync sym :: post := by
      rw [h.job]
      simp
    have hop : c.job[i]? = some (.ucDmaWriteDesSync sym) := by
      rw [hjob, h.index, hi, List.getElem?_append_right le_rfl, Nat.sub_self]
      rfl
    have hprev : prevWriteDesSync (c.job.take i).reverse =
        some (mid.reverse, prev, before.reverse) := by
      refine prevWriteDesSync_eq_some.2 ⟨?_, fun o ho => h.passed o (List.mem_reverse.1 ho)⟩
      rw [hjob, h.index, hi, List.take_left']
      · simp
      · rfl
    have hdrop : c.job.drop i = .ucDmaWriteDesSync sym :: post := by
      rw [hjob, h.index, hi, List.drop_left']
      rfl
    simp only [mergeConsecutive, hop, CertOp.sync, hprev, h.chain, h.prevChain, hdrop,
      Option.bind_eq_bind, Option.bind_some, if_neg (not_le.2 h.size), h.result]
    simp [Chains.merged]

/-! ## The job as cells -/

/-- The chains a job writes, each with the operations before it, and the operations after all. -/
@[grind =] def blocks (chains : Chains) : List CertOp → List (Block UcDmaWrite CertOp) × List CertOp
  | [] => ([], [])
  | o :: job =>
    match o.sync.bind chains with
    | some bds => (⟨[], bds.map CertUcDmaBd.write⟩ :: (blocks chains job).1, (blocks chains job).2)
    | none =>
      match (blocks chains job).1 with
      | [] => ([], o :: (blocks chains job).2)
      | b :: bs => (⟨o :: b.gap, b.cell⟩ :: bs, (blocks chains job).2)

/-- Merges stop at an operation of the stop list, and at a write of a chain that is not there. -/
def certRules : MergeRules UcDmaWrite CertOp where
  stops o := o.stopsMerge || o.sync.isSome
  silent o := decide (o = .nop)
  weight w := w.length * 4
  limit := certPageSize
  fits a b := (a + b) % 2 ^ 32 < certPageSize
  fits_of_lt _ _ h := lt_of_le_of_lt (Nat.mod_le _ _) h

def CertCode.cells (c : CertCode) : List (Block UcDmaWrite CertOp) := (blocks c.chains c.job).1

variable {chains chains' : Chains} {job before mid post rest : List CertOp} {o : CertOp}
  {s prev sym : String} {bds prevBds : List CertUcDmaBd}

theorem blocks_cons_sync (h : chains s = some bds) :
    blocks chains (.ucDmaWriteDesSync s :: job) =
      (⟨[], bds.map CertUcDmaBd.write⟩ :: (blocks chains job).1, (blocks chains job).2) := by
  simp [blocks, CertOp.sync, h]

theorem blocks_cons_other (h : o.sync.bind chains = none) :
    blocks chains (o :: job) =
      match (blocks chains job).1 with
      | [] => ([], o :: (blocks chains job).2)
      | b :: bs => (⟨o :: b.gap, b.cell⟩ :: bs, (blocks chains job).2) := by
  rw [blocks, h]

theorem blocks_append_sync (h : chains s = some bds) :
    blocks chains (before ++ .ucDmaWriteDesSync s :: post) =
      ((blocks chains before).1 ++
          ⟨(blocks chains before).2, bds.map CertUcDmaBd.write⟩ :: (blocks chains post).1,
        (blocks chains post).2) := by
  induction before with
  | nil => exact blocks_cons_sync h
  | cons o before ih =>
    cases ho : o.sync.bind chains with
    | some bds' =>
      rw [List.cons_append, blocks, ho, ih, blocks, ho]
      rfl
    | none =>
      rw [List.cons_append, blocks_cons_other ho, blocks_cons_other ho, ih]
      cases (blocks chains before).1 <;> rfl

theorem blocks_congr (h : ∀ o ∈ job, o.sync.bind chains = o.sync.bind chains') :
    blocks chains job = blocks chains' job := by
  induction job with
  | nil => rfl
  | cons o job ih =>
    rw [blocks, blocks, h o List.mem_cons_self, ih fun p hp => h p (List.mem_cons_of_mem o hp)]

theorem blocks_of_passed (h : ∀ o ∈ mid, o.sync = none) : blocks chains mid = ([], mid) := by
  induction mid with
  | nil => rfl
  | cons o mid ih =>
    rw [blocks, h o List.mem_cons_self, ih fun p hp => h p (List.mem_cons_of_mem o hp)]
    rfl

theorem blocks_append_passed (h : ∀ o ∈ mid, o.sync = none) :
    blocks chains (before ++ mid) = ((blocks chains before).1, (blocks chains before).2 ++ mid) := by
  induction before with
  | nil => exact blocks_of_passed h
  | cons o before ih =>
    rw [List.cons_append, blocks, blocks, ih]
    cases o.sync.bind chains with
    | some bds => rfl
    | none => cases (blocks chains before).1 <;> rfl

theorem blocks_of_nil (h : (blocks chains mid).1 = []) : (blocks chains mid).2 = mid := by
  induction mid with
  | nil => rfl
  | cons o mid ih =>
    cases ho : o.sync.bind chains with
    | some bds =>
      rw [blocks, ho] at h
      cases h
    | none =>
      rw [blocks_cons_other ho] at h ⊢
      cases hmid : (blocks chains mid).1 with
      | nil => exact congrArg (o :: ·) (ih hmid)
      | cons b bs =>
        rw [hmid] at h
        cases h

theorem exists_of_blocks {pre post : List (Block UcDmaWrite CertOp)}
    {b : Block UcDmaWrite CertOp} (h : (blocks chains job).1 = pre ++ b :: post) :
    ∃ before s bds rest, job = before ++ .ucDmaWriteDesSync s :: rest ∧ chains s = some bds ∧
      blocks chains before = (pre, b.gap) ∧ b.cell = bds.map CertUcDmaBd.write ∧
      (blocks chains rest).1 = post := by
  induction job generalizing pre b with
  | nil => simp [blocks] at h
  | cons o job ih =>
    cases ho : o.sync.bind chains with
    | some bds =>
      obtain ⟨s, hsync, hs⟩ := Option.bind_eq_some_iff.1 ho
      obtain rfl := sync_eq_some.1 hsync
      rw [blocks_cons_sync hs] at h
      cases pre with
      | nil =>
        obtain ⟨rfl, rfl⟩ := List.cons_eq_cons.1 h
        exact ⟨[], s, bds, job, rfl, hs, rfl, rfl, rfl⟩
      | cons d pre =>
        obtain ⟨rfl, htail⟩ := List.cons_eq_cons.1 h
        obtain ⟨before, s', bds', rest, rfl, hs', hbefore, hcell, hrest⟩ := ih htail
        refine ⟨.ucDmaWriteDesSync s :: before, s', bds', rest, rfl, hs', ?_, hcell, hrest⟩
        rw [blocks_cons_sync hs, hbefore]
    | none =>
      rw [blocks_cons_other ho] at h
      cases hjob : (blocks chains job).1 with
      | nil =>
        rw [hjob] at h
        simp at h
      | cons d ds =>
        rw [hjob] at h
        cases pre with
        | nil =>
          obtain ⟨rfl, rfl⟩ := List.cons_eq_cons.1 h
          obtain ⟨before, s, bds, rest, rfl, hs, hbefore, hcell, hrest⟩ :=
            ih (show (blocks chains job).1 = [] ++ d :: ds from hjob)
          refine ⟨o :: before, s, bds, rest, rfl, hs, ?_, hcell, hrest⟩
          rw [blocks_cons_other ho, hbefore]
        | cons e pre =>
          obtain ⟨rfl, htail⟩ := List.cons_eq_cons.1 h
          have hsplit : (blocks chains job).1 = (d :: pre) ++ b :: post := by
            rw [hjob, htail]
            rfl
          obtain ⟨before, s, bds, rest, rfl, hs, hbefore, hcell, hrest⟩ := ih hsplit
          refine ⟨o :: before, s, bds, rest, rfl, hs, ?_, hcell, hrest⟩
          rw [blocks_cons_other ho, hbefore]

/-! ## Effects and sizes -/

theorem effects_of_other (h : o.sync.bind chains = none) :
    o.effects chains = ([o].filter fun o => !certRules.silent o).map .inr := by
  rw [CertOp.effects, h]
  by_cases ho : o = .nop
  · subst ho
    rfl
  · have hloud : certRules.silent o = false := decide_eq_false ho
    simp [ho, hloud]

/-- What a job does, cell by cell. -/
theorem effects_eq (c : CertCode) : c.effects = certRules.effects c.cells ++
    ((blocks c.chains c.job).2.filter fun o => !certRules.silent o).map .inr := by
  obtain ⟨chains, job⟩ := c
  rw [CertCode.effects, CertCode.cells]
  dsimp only
  induction job with
  | nil => rfl
  | cons o job ih =>
    rw [List.flatMap_cons, ih]
    cases ho : o.sync.bind chains with
    | some bds =>
      obtain ⟨s, hsync, hs⟩ := Option.bind_eq_some_iff.1 ho
      obtain rfl := sync_eq_some.1 hsync
      rw [blocks_cons_sync hs, CertOp.effects, ho]
      simp [MergeRules.effects]
    | none =>
      rw [effects_of_other ho, blocks_cons_other ho]
      cases (blocks chains job).1 with
      | nil =>
        by_cases hsilent : certRules.silent o = true <;> simp [MergeRules.effects, hsilent]
      | cons b bs =>
        by_cases hsilent : certRules.silent o = true <;> simp [MergeRules.effects, hsilent]

@[grind =] def chainBytes (bds : List CertUcDmaBd) : ℕ := (bds.map fun bd => bd.length * 4).sum

theorem chainSize_eq (bds : List CertUcDmaBd) : chainSize bds = chainBytes bds % 2 ^ 32 := by
  have hfold : ∀ n, bds.foldl (fun n bd => (n + bd.length * 4) % 2 ^ 32) (n % 2 ^ 32) =
      (n + chainBytes bds) % 2 ^ 32 := by
    induction bds with
    | nil => exact fun n => rfl
    | cons bd bds ih =>
      intro n
      rw [List.foldl_cons, Nat.mod_add_mod, ih, chainBytes, chainBytes, List.map_cons,
        List.sum_cons, Nat.add_assoc]
  have h := hfold 0
  rwa [Nat.zero_mod, Nat.zero_add] at h

theorem total_chain (g : List CertOp) (bds : List CertUcDmaBd) :
    certRules.total [⟨g, bds.map CertUcDmaBd.write⟩] = chainBytes bds := by
  simp [MergeRules.total, certRules, chainBytes, CertUcDmaBd.write, Function.comp_def]

theorem size_lt_iff : (chainSize bds + chainSize prevBds) % 2 ^ 32 < certPageSize ↔
    (chainBytes prevBds + chainBytes bds) % 2 ^ 32 < certPageSize := by
  rw [chainSize_eq, chainSize_eq, ← Nat.add_mod, Nat.add_comm]

theorem chainBytes_append (xs ys : List CertUcDmaBd) :
    chainBytes (xs ++ ys) = chainBytes xs + chainBytes ys := by
  simp [chainBytes]

/-! ## The pattern merges cells -/

def CertCode.written (c : CertCode) : List String := c.job.filterMap CertOp.sync

def MergeStep (c c' : CertCode) : Prop := ∃ i, mergeConsecutive c i = some c'

theorem merged_of_ne (hsym : s ≠ sym) (hprev : s ≠ prev) :
    chains.merged sym prev bds prevBds s = chains s := by
  rw [Chains.merged, Function.update_of_ne hprev, Function.update_of_ne hsym]

theorem merged_sym (h : sym ≠ prev) : chains.merged sym prev bds prevBds sym =
    some (prevBds.map (fun bd => { bd with nextBd := true }) ++ bds) := by
  rw [Chains.merged, Function.update_of_ne h, Function.update_self]

/-- Operations that write neither chain find their chains as before. -/
theorem blocks_merged (h : ∀ s ∈ job.filterMap CertOp.sync, s ≠ sym ∧ s ≠ prev) :
    blocks (chains.merged sym prev bds prevBds) job = blocks chains job := by
  refine blocks_congr fun o ho => ?_
  cases hsync : o.sync with
  | none => rfl
  | some s =>
    obtain ⟨hsym, hprev⟩ := h s (List.mem_filterMap.2 ⟨o, ho, hsync⟩)
    exact merged_of_ne hsym hprev

theorem write_linked (bds : List CertUcDmaBd) :
    (bds.map fun bd => { bd with nextBd := true }).map CertUcDmaBd.write =
      bds.map CertUcDmaBd.write := by
  simp [CertUcDmaBd.write, Function.comp_def]

theorem written_passed (h : ∀ o ∈ mid, o.Passed) : mid.filterMap CertOp.sync = [] :=
  List.filterMap_eq_nil_iff.2 fun o ho => (h o ho).2

section Step

variable {c c' : CertCode} {i : ℕ}

theorem Merges.written (h : Merges c i c' before mid post prev sym prevBds bds) :
    c.written = before.filterMap CertOp.sync ++ prev :: sym :: post.filterMap CertOp.sync ∧
      c'.written = before.filterMap CertOp.sync ++ sym :: post.filterMap CertOp.sync := by
  rw [CertCode.written, CertCode.written, h.job, h.result]
  simp [written_passed h.passed, CertOp.sync]

theorem Merges.cells (h : Merges c i c' before mid post prev sym prevBds bds)
    (hnodup : c.written.Nodup) :
    c.cells = (blocks c.chains before).1 ++
        ⟨(blocks c.chains before).2, prevBds.map CertUcDmaBd.write⟩ ::
        ⟨mid, bds.map CertUcDmaBd.write⟩ :: (blocks c.chains post).1 ∧
      c'.cells = (blocks c.chains before).1 ++
        ⟨(blocks c.chains before).2 ++ mid, prevBds.map CertUcDmaBd.write ++
          bds.map CertUcDmaBd.write⟩ :: (blocks c.chains post).1 ∧
      (blocks c'.chains c'.job).2 = (blocks c.chains c.job).2 := by
  rw [h.written.1, List.nodup_append, List.nodup_cons, List.nodup_cons] at hnodup
  obtain ⟨_, ⟨hprev, hsym, _⟩, hbefore⟩ := hnodup
  have hne : sym ≠ prev := fun heq => hprev (heq ▸ List.mem_cons_self)
  have hmid : blocks c.chains mid = ([], mid) := blocks_of_passed fun o ho => (h.passed o ho).2
  have hpost : blocks (c.chains.merged sym prev bds prevBds) post = blocks c.chains post := by
    refine blocks_merged fun s hs => ⟨?_, ?_⟩
    · rintro rfl
      exact hsym hs
    · rintro rfl
      exact hprev (List.mem_cons_of_mem _ hs)
  have hpre : blocks (c.chains.merged sym prev bds prevBds) (before ++ mid) =
      ((blocks c.chains before).1, (blocks c.chains before).2 ++ mid) := by
    rw [← blocks_append_passed fun o ho => (h.passed o ho).2]
    refine blocks_merged fun s hs => ?_
    rw [List.filterMap_append, written_passed h.passed, List.append_nil] at hs
    exact ⟨hbefore s hs sym (List.mem_cons_of_mem _ List.mem_cons_self),
      hbefore s hs prev List.mem_cons_self⟩
  have hblocks : blocks c.chains c.job = ((blocks c.chains before).1 ++
      ⟨(blocks c.chains before).2, prevBds.map CertUcDmaBd.write⟩ ::
        ⟨mid, bds.map CertUcDmaBd.write⟩ :: (blocks c.chains post).1,
      (blocks c.chains post).2) := by
    rw [h.job, blocks_append_sync h.prevChain, blocks_append_sync h.chain, hmid]
    rfl
  have hblocks' : blocks c'.chains c'.job = ((blocks c.chains before).1 ++
      ⟨(blocks c.chains before).2 ++ mid, prevBds.map CertUcDmaBd.write ++
        bds.map CertUcDmaBd.write⟩ :: (blocks c.chains post).1, (blocks c.chains post).2) := by
    rw [h.result, ← List.append_assoc, blocks_append_sync (merged_sym hne), hpre, hpost,
      List.map_append, write_linked]
  exact ⟨congrArg Prod.fst hblocks, congrArg Prod.fst hblocks', by rw [hblocks, hblocks']⟩

theorem Merges.mergeInto (h : Merges c i c' before mid post prev sym prevBds bds)
    (hnodup : c.written.Nodup) :
    certRules.MergeInto ⟨(blocks c.chains before).2 ++ mid,
      prevBds.map CertUcDmaBd.write ++ bds.map CertUcDmaBd.write⟩ c.cells c'.cells := by
  obtain ⟨hcells, hcells', _⟩ := h.cells hnodup
  rw [hcells, hcells']
  refine .mk _ ⟨_, prevBds.map CertUcDmaBd.write⟩ ⟨mid, bds.map CertUcDmaBd.write⟩ _ ?_ ?_
  · intro o ho
    show (o.stopsMerge || o.sync.isSome) = false
    rw [(h.passed o ho).1, (h.passed o ho).2]
    rfl
  · rw [total_chain, total_chain]
    exact size_lt_iff.1 h.size

/-- **One step of the pattern** merges cells, and keeps what follows them. -/
theorem merge_step (h : MergeStep c c') (hnodup : c.written.Nodup) :
    certRules.Merge c.cells c'.cells ∧ c'.written.Nodup ∧
      (blocks c'.chains c'.job).2 = (blocks c.chains c.job).2 := by
  obtain ⟨i, hi⟩ := h
  obtain ⟨before, mid, post, prev, sym, prevBds, bds, hmerges⟩ := mergeConsecutive_eq_some.1 hi
  refine ⟨⟨_, hmerges.mergeInto hnodup⟩, ?_, (hmerges.cells hnodup).2.2⟩
  obtain ⟨hwritten, hwritten'⟩ := hmerges.written
  rw [hwritten] at hnodup
  rw [hwritten']
  exact hnodup.sublist (by simp)

/-- **The pattern may merge** any two cells that may be. -/
theorem exists_mergeConsecutive {b : Block UcDmaWrite CertOp}
    {l : List (Block UcDmaWrite CertOp)} (hnodup : c.written.Nodup)
    (h : certRules.MergeInto b c.cells l) :
    ∃ i c' before mid post prev sym prevBds bds,
      Merges c i c' before mid post prev sym prevBds bds ∧ c'.cells = l ∧
        certRules.total [b] = chainBytes prevBds + chainBytes bds := by
  generalize hcells : c.cells = cells at h
  obtain ⟨pre, a, b, post, hstops, hfits⟩ := h
  obtain ⟨before, prev, prevBds, rest, hjob, hprev, hbefore, ha, hrest⟩ := exists_of_blocks hcells
  obtain ⟨mid, sym, bds, post', hrestjob, hsym, hmid, hb, hpost⟩ :=
    exists_of_blocks (show (blocks c.chains rest).1 = [] ++ b :: post from hrest)
  have hgap : b.gap = mid := by
    rw [← blocks_of_nil (congrArg Prod.fst hmid), hmid]
  have hpassed : ∀ o ∈ mid, o.Passed := by
    intro o ho
    have hstop := hstops o (hgap ▸ ho)
    obtain ⟨hstop, hsync⟩ := Bool.or_eq_false_iff.1 hstop
    exact ⟨hstop, Option.isSome_eq_false_iff.1 hsync |> Option.isNone_iff_eq_none.1⟩
  have ha' : certRules.total [a] = chainBytes prevBds := by
    rw [← total_chain a.gap, ← ha]
  have hb' : certRules.total [b] = chainBytes bds := by
    rw [← total_chain b.gap, ← hb]
  rw [ha', hb'] at hfits
  have hmerges : Merges c _ _ before mid post' prev sym prevBds bds :=
    ⟨hjob.trans (by rw [hrestjob]), rfl, hpassed, hprev, hsym, size_lt_iff.2 hfits, rfl⟩
  refine ⟨_, _, before, mid, post', prev, sym, prevBds, bds, hmerges, ?_, ?_⟩
  · rw [(hmerges.cells hnodup).2.1, hbefore, hpost, ha, hb, hgap]
  · rw [MergeRules.total_merged, MergeRules.total_cons, ha', hb']

end Step

/-! ## Runs of the pattern -/

/-- Distinct chains, and the operations after them that the job starts with. -/
def Run (c c' : CertCode) : Prop :=
  c'.written.Nodup ∧ (blocks c'.chains c'.job).2 = (blocks c.chains c.job).2

variable {c c₁ c₂ : CertCode}

theorem run_step (x y : CertCode) (hx : Run c x) (h : MergeStep x y) :
    Run c y ∧ certRules.Merge x.cells y.cells := by
  obtain ⟨hmerge, hnodup, htail⟩ := merge_step h hx.1
  exact ⟨⟨hnodup, htail.trans hx.2⟩, hmerge⟩

theorem run_back (x : CertCode) (l : List (Block UcDmaWrite CertOp)) (hx : Run c x)
    (h : certRules.Merge x.cells l) : ∃ y, MergeStep x y ∧ y.cells = l := by
  obtain ⟨b, hb⟩ := h
  obtain ⟨i, y, _, _, _, _, _, _, _, hmerges, hcells, _⟩ := exists_mergeConsecutive hx.1 hb
  exact ⟨y, ⟨i, mergeConsecutive_eq_some.2 ⟨_, _, _, _, _, _, _, hmerges⟩⟩, hcells⟩

theorem Run.effects_eq_iff {c' : CertCode} (h : Run c c') :
    c'.effects = c.effects ↔ certRules.effects c'.cells = certRules.effects c.cells := by
  rw [effects_eq, effects_eq, h.2]
  exact List.append_left_inj _

theorem Merges.chain_merged {i : ℕ} (h : Merges c₁ i c₂ before mid post prev sym prevBds bds)
    (hnodup : c₁.written.Nodup) : c₁.job[i]? = some (.ucDmaWriteDesSync sym) ∧
      c₂.chains sym = some (prevBds.map (fun bd => { bd with nextBd := true }) ++ bds) := by
  constructor
  · rw [h.job, h.index]
    simp
  · have hne : sym ≠ prev := by
      rintro rfl
      rw [h.written.1, List.nodup_append] at hnodup
      exact (List.nodup_cons.1 hnodup.2.1).1 List.mem_cons_self
    rw [h.result]
    exact merged_sym hne

theorem chainBytes_linked (bds : List CertUcDmaBd) :
    chainBytes (bds.map fun bd => { bd with nextBd := true }) = chainBytes bds := by
  simp [chainBytes, Function.comp_def]

/-- **Merging chain writes keeps what a job does**, in every run to a fixed point, and every merged
chain is smaller than a page, exactly if no chains that fit a page together have an operation with
an effect between them that does not stop a merge, and no 32-bit sum of chain sizes wraps below the
page size. -/
theorem mergeConsecutive_preserves_iff (c : CertCode) (hwritten : c.written.Nodup) :
    ((∀ c', RewritesTo MergeStep c c' → c'.effects = c.effects) ∧
      ∀ c₁ i c₂ s bds, Relation.ReflTransGen MergeStep c c₁ → mergeConsecutive c₁ i = some c₂ →
        c₁.job[i]? = some (.ucDmaWriteDesSync s) → c₂.chains s = some bds →
          chainBytes bds < certPageSize) ↔
      certRules.Clean c.cells := by
  have hstart : Run c c := ⟨hwritten, rfl⟩
  rw [MergeRules.clean_iff]
  constructor
  · rintro ⟨heffects, hsize⟩
    constructor
    · rintro l ⟨hrun, hnormal⟩
      obtain ⟨c', hc', hinv, rfl⟩ := exists_run_of_map run_step run_back hstart hrun
      exact hinv.effects_eq_iff.mp (heffects c' ⟨hc', normal_of_map run_step hinv hnormal⟩)
    · intro l₁ b l₂ hrun hmerge
      obtain ⟨c₁, hc₁, hinv, rfl⟩ := exists_run_of_map run_step run_back hstart hrun
      obtain ⟨i, c₂, _, _, _, _, sym, prevBds, bds, hmerges, _, htotal⟩ :=
        exists_mergeConsecutive hinv.1 hmerge
      obtain ⟨hop, hchain⟩ := hmerges.chain_merged hinv.1
      have hlt := hsize c₁ i c₂ sym _ hc₁
        (mergeConsecutive_eq_some.mpr ⟨_, _, _, _, _, _, _, hmerges⟩) hop hchain
      rwa [chainBytes_append, chainBytes_linked, ← htotal] at hlt
  · rintro ⟨heffects, htotal⟩
    constructor
    · rintro c' ⟨hrun, hnormal⟩
      obtain ⟨hinv, hcells⟩ := run_map run_step hstart hrun
      exact hinv.effects_eq_iff.mpr
        (heffects c'.cells ⟨hcells, normal_map run_back hinv hnormal⟩)
    · intro c₁ i c₂ s bds hrun hmerge hop hchain
      obtain ⟨hinv, hcells⟩ := run_map run_step hstart hrun
      obtain ⟨before, mid, post, prev, sym, prevBds, bds', hmerges⟩ :=
        mergeConsecutive_eq_some.mp hmerge
      obtain ⟨hop', hchain'⟩ := hmerges.chain_merged hinv.1
      cases hop.symm.trans hop'
      cases hchain.symm.trans hchain'
      have hlt := htotal c₁.cells _ c₂.cells hcells (hmerges.mergeInto hinv.1)
      rw [← List.map_append, total_chain, chainBytes_append] at hlt
      rwa [chainBytes_append, chainBytes_linked]

/-! ## Two chains -/

/-- Two chains of one descriptor each, and what stands between their writes. -/
def twoChains (between : List CertOp) : CertCode where
  chains s := if s = "chain_0" then some [⟨"data_0", 0x1000, 8, false⟩]
    else if s = "chain_1" then some [⟨"data_1", 0x2000, 8, false⟩] else none
  job := .ucDmaWriteDesSync "chain_0" :: between ++ [.ucDmaWriteDesSync "chain_1"]

/-- A chain write moves across `cert.load_pdi`. -/
theorem mergeConsecutive_crosses_loadPdi :
    ¬ ∀ c', RewritesTo MergeStep (twoChains [.loadPdi 1 "pdi"]) c' →
      c'.effects = (twoChains [.loadPdi 1 "pdi"]).effects := by
  intro h
  have hmerge : mergeConsecutive (twoChains [.loadPdi 1 "pdi"]) 2 = some
      ⟨(twoChains []).chains.merged "chain_1" "chain_0" [⟨"data_1", 0x2000, 8, false⟩]
        [⟨"data_0", 0x1000, 8, false⟩], [.loadPdi 1 "pdi", .ucDmaWriteDesSync "chain_1"]⟩ := rfl
  have heffects := h _ ⟨.single ⟨2, hmerge⟩, ?_⟩
  · exact absurd heffects (by decide)
  · rintro c' ⟨i, hi⟩
    obtain ⟨before, mid, post, prev, sym, _, _, hmerges⟩ := mergeConsecutive_eq_some.mp hi
    have hwritten := congrArg List.length hmerges.written.1
    rw [List.length_append, List.length_cons, List.length_cons] at hwritten
    have hone : (List.filterMap CertOp.sync
        [.loadPdi 1 "pdi", .ucDmaWriteDesSync "chain_1"]).length = 1 := by decide
    have := hone.symm.trans hwritten
    omega

/-- Chain writes with nothing between them become one. -/
theorem mergeConsecutive_preserves_adjacent :
    (∀ c', RewritesTo MergeStep (twoChains []) c' → c'.effects = (twoChains []).effects) ∧
      ∀ c₁ i c₂ s bds, Relation.ReflTransGen MergeStep (twoChains []) c₁ →
        mergeConsecutive c₁ i = some c₂ → c₁.job[i]? = some (.ucDmaWriteDesSync s) →
          c₂.chains s = some bds → chainBytes bds < certPageSize := by
  refine (mergeConsecutive_preserves_iff (twoChains []) (by decide)).mpr ⟨?_, ?_⟩
  · rintro ⟨u, b, hin, _, _, ⟨o, ho, _⟩, _⟩
    have hb : b ∈ (twoChains []).cells := hin.subset (List.mem_append_right u List.mem_cons_self)
    have hgap : ∀ b ∈ (twoChains []).cells, b.gap = [] := by decide
    rw [hgap b hb] at ho
    cases ho
  · rintro ⟨u, v, hin, _, _, _, _, hlimit⟩
    obtain ⟨p, q, hpq⟩ := hin
    have htotal : certRules.total (twoChains []).cells = 64 := by decide
    rw [← hpq, MergeRules.total_append, MergeRules.total_append] at htotal
    have hpage : certRules.limit = 8000 := rfl
    omega

end MlirAie.Cert
