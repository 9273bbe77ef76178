import MlirAie.Cert.Pages
import MlirAie.Cert.PagesSound
import MlirAie.Lib.Lists
import MlirAie.Lib.Rewrite

/-!
# CERT pages fit

A page that costs too much is split at the first place within a job where it costs half a page,
and left as it is where there is no such place.

* `costBefore`: what the operations before a place cost;
* `estimateCost_split_iff`: the place to split is found exactly if there is one;
* **`certPages_fit_iff`**: the splitting ends, and every page fits exactly if none that the
  splitting comes to jumps.
-/

namespace MlirAie.Cert

open Lib

/-! ## Pages by their operations -/

/-- The operations of the jobs of a page. -/
def pageOps (jobs : List CertJob) : List (List CertOp) := jobs.map CertJob.ops

@[simp] theorem pageOps_nil : pageOps [] = [] := rfl

@[simp] theorem pageOps_cons (j : CertJob) (jobs : List CertJob) :
    pageOps (j :: jobs) = j.ops :: pageOps jobs := rfl

@[simp] theorem pageOps_append (left right : List CertJob) :
    pageOps (left ++ right) = pageOps left ++ pageOps right := List.map_append

def CertItem.pages : CertItem → List (List (List CertOp))
  | .page jobs => [pageOps jobs]
  | .job _ => []

def CertRegion.pageOps (r : CertRegion) : List (List (List CertOp)) :=
  r.body.flatMap CertItem.pages

def CertDevice.pages (d : CertDevice) : List (List (List CertOp)) :=
  d.regions.flatMap CertRegion.pageOps

def costFrom (d : CertDevice) (c : PageCost) (ops : List CertOp) : PageCost :=
  ops.foldl (fun c o => updateCostForOp d o c) c

def pageCost (d : CertDevice) (page : List (List CertOp)) : ℕ :=
  (costFrom d {} page.flatten).total

/-- The operations before the `i`th of the `k`th job. -/
def opsBefore (page : List (List CertOp)) (k i : ℕ) : List CertOp :=
  (page.take k).flatten ++ ((page[k]?).getD []).take i

def costBefore (d : CertDevice) (page : List (List CertOp)) (k i : ℕ) : ℕ :=
  (costFrom d {} (opsBefore page k i)).total

/-- A page can be split before the `i`th operation of its `k`th job, unless that is the first. -/
def IsPlace (page : List (List CertOp)) (k i : ℕ) : Prop :=
  ∃ ops, page[k]? = some ops ∧ 0 < i ∧ i < ops.length

/-- A page costs less than `certPageSize`, or holds a single operation. -/
def Fits (d : CertDevice) (page : List (List CertOp)) : Prop :=
  pageCost d page < certPageSize ∨ page.flatten.length ≤ 1

/-- A page of several operations that costs too much, but less than half a page before each place
where it could be split. -/
def Jumps (d : CertDevice) (page : List (List CertOp)) : Prop :=
  1 < page.flatten.length ∧ certPageSize ≤ pageCost d page ∧
    ∀ k i, IsPlace page k i → costBefore d page k i < certPageSize / 2

/-- The two pages that a page is split into. -/
def cutPage (d : CertDevice) (page : List (List CertOp)) :
    Option (List (List CertOp) × List (List CertOp)) :=
  (splitPoint d (page.map (CertJob.mk 0))).map fun place =>
    (page.take place.1 ++ [((page[place.1]?).getD []).take place.2],
      ((page[place.1]?).getD []).drop place.2 :: page.drop (place.1 + 1))

section Cost

variable {d : CertDevice} {target k n : ℕ} {c : PageCost} {jobs : List CertJob}

/-! ## Where a page is split -/

theorem costFrom_append (c : PageCost) (ops ops' : List CertOp) :
    costFrom d c (ops ++ ops') = costFrom d (costFrom d c ops) ops' := by
  rw [costFrom, List.foldl_append]
  rfl

theorem updateCostForOp_erase (o : CertOp) (c : PageCost) :
    updateCostForOp d o { c with split := none } =
      { updateCostForOp d o c with split := none } := by
  cases o <;> rfl

theorem total_erase (c : PageCost) : PageCost.total { c with split := none } = c.total := rfl

theorem opsBefore_succ {page : List (List CertOp)} {ops : List CertOp} {o : CertOp}
    (hops : page[k]? = some ops) (ho : ops[n]? = some o) :
    opsBefore page k (n + 1) = opsBefore page k n ++ [o] := by
  rw [opsBefore, opsBefore, hops, Option.getD_some, List.take_add_one, ho, List.append_assoc]
  rfl

theorem opsBefore_zero {page : List (List CertOp)} {ops : List CertOp}
    (hops : page[k]? = some ops) : opsBefore page (k + 1) 0 = opsBefore page k ops.length := by
  rw [opsBefore, opsBefore, hops, Option.getD_some, List.take_length, List.take_zero,
    List.append_nil, List.take_add_one, hops, List.flatten_append]
  simp

theorem opsBefore_length (page : List (List CertOp)) :
    opsBefore page page.length 0 = page.flatten := by
  rw [opsBefore, List.take_length, List.take_zero, List.append_nil]

/-- The estimate has come to the `n`th operation of the `k`th job: it has priced the operations
before it, and found a place to split exactly if one of them was. -/
structure ComeTo (d : CertDevice) (target : ℕ) (page : List (List CertOp)) (k n : ℕ)
    (c : PageCost) : Prop where
  cost : { c with split := none } = costFrom d {} (opsBefore page k n)
  unsplit : c.split = none → ∀ k' i, IsPlace page k' i → k' < k ∨ k' = k ∧ i ≤ n →
    costBefore d page k' i < target
  split : ∀ k' i, c.split = some (k', i) → IsPlace page k' i ∧ target ≤ costBefore d page k' i

theorem ComeTo.total_eq {page : List (List CertOp)} (h : ComeTo d target page k n c) :
    c.total = costBefore d page k n := by
  rw [costBefore, ← h.cost, total_erase]

theorem ComeTo.update {page : List (List CertOp)} {ops : List CertOp} {o : CertOp}
    (h : ComeTo d target page k n c) (hops : page[k]? = some ops) (ho : ops[n]? = some o) :
    { updateCostForOp d o c with split := none } =
      costFrom d {} (opsBefore page k (n + 1)) := by
  rw [← updateCostForOp_erase, h.cost, opsBefore_succ hops ho, costFrom_append]
  rfl

theorem ComeTo.estimateOp {page : List (List CertOp)} {ops : List CertOp} {o : CertOp}
    (h : ComeTo d target page k n c) (hops : page[k]? = some ops) (ho : ops[n]? = some o) :
    ComeTo d target page k (n + 1) (estimateOp d target k ops.length c (o, n)) := by
  have hn : n < ops.length := (List.getElem?_eq_some_iff.1 ho).1
  -- The place before the operation was looked at after the operation before it.
  have hstart : ¬ (c.split = none ∧ n ≠ 0 ∧ c.total ≥ target) := by
    rintro ⟨hnone, hpos, htarget⟩
    have hlt := h.unsplit hnone k n ⟨ops, hops, Nat.pos_of_ne_zero hpos, hn⟩ (.inr ⟨rfl, le_rfl⟩)
    rw [h.total_eq] at htarget
    omega
  have hupdate := h.update hops ho
  have htotal : (updateCostForOp d o c).total = costBefore d page k (n + 1) := by
    rw [costBefore, ← hupdate, total_erase]
  simp only [Cert.estimateOp, if_neg hstart]
  split_ifs with hnext
  · refine ⟨hupdate, ?_, ?_⟩
    · intro hnone
      cases hnone
    intro k' i heq
    cases heq
    exact ⟨⟨ops, hops, Nat.succ_pos n, hnext.2.2⟩, htotal ▸ hnext.2.1⟩
  · refine ⟨hupdate, ?_, ?_⟩
    · intro hnone k' i hplace hbefore
      rw [updateCostForOp_split] at hnone
      by_cases hlast : k' = k ∧ i = n + 1
      · obtain ⟨rfl, rfl⟩ := hlast
        obtain ⟨ops', hops', -, hi⟩ := hplace
        cases hops.symm.trans hops'
        rw [updateCostForOp_split, htotal] at hnext
        exact not_le.1 fun hge => hnext ⟨hnone, hge, hi⟩
      · exact h.unsplit hnone k' i hplace (by omega)
    · intro k' i heq
      rw [updateCostForOp_split] at heq
      exact h.split k' i heq

theorem ComeTo.nextJob {page : List (List CertOp)} {ops : List CertOp}
    (h : ComeTo d target page k ops.length c) (hops : page[k]? = some ops) :
    ComeTo d target page (k + 1) 0 c := by
  refine ⟨by rw [h.cost, opsBefore_zero hops], ?_, h.split⟩
  intro hnone k' i hplace hbefore
  refine h.unsplit hnone k' i hplace ?_
  obtain ⟨ops', hops', hpos, hi⟩ := hplace
  by_cases hk : k' = k
  · subst hk
    cases hops.symm.trans hops'
    exact .inr ⟨rfl, hi.le⟩
  · exact .inl (by omega)

theorem comeTo_estimateCost :
    ComeTo d target (pageOps jobs) jobs.length 0 (estimateCost d target jobs) := by
  have hstart : ComeTo d target (pageOps jobs) 0 0 {} := by
    refine ⟨rfl, ?_, ?_⟩
    · rintro - k' i ⟨ops, hops, hpos, hi⟩ hbefore
      omega
    · intro k' i heq
      cases heq
  refine foldl_zipIdx (P := fun k c => ComeTo d target (pageOps jobs) k 0 c) ?_ hstart
  intro k j c hj h
  have hops : (pageOps jobs)[k]? = some j.ops := by rw [pageOps, List.getElem?_map, hj]; rfl
  refine ComeTo.nextJob ?_ hops
  refine foldl_zipIdx (P := fun n c => ComeTo d target (pageOps jobs) k n c) ?_ h
  intro n o c ho h
  exact h.estimateOp hops ho

theorem estimateCost_total : (estimateCost d target jobs).total = pageCost d (pageOps jobs) := by
  have hcost : ComeTo d target (pageOps jobs) jobs.length 0 (estimateCost d target jobs) :=
    comeTo_estimateCost
  rw [hcost.total_eq, costBefore, pageCost, ← opsBefore_length (pageOps jobs), pageOps,
    List.length_map]

/-- **The place to split is found** exactly if there is one. -/
theorem estimateCost_split_iff : (estimateCost d target jobs).split = none ↔
    ∀ k i, IsPlace (pageOps jobs) k i → costBefore d (pageOps jobs) k i < target := by
  have hcost : ComeTo d target (pageOps jobs) jobs.length 0 (estimateCost d target jobs) :=
    comeTo_estimateCost
  constructor
  · intro hnone k i hplace
    refine hcost.unsplit hnone k i hplace (.inl ?_)
    obtain ⟨ops, hops, -⟩ := hplace
    have hlt := (List.getElem?_eq_some_iff.1 hops).1
    rwa [pageOps, List.length_map] at hlt
  · intro h
    cases hsplit : (estimateCost d target jobs).split with
    | none => rfl
    | some place =>
      obtain ⟨hplace, htarget⟩ := hcost.split place.1 place.2 hsplit
      exact absurd (h _ _ hplace) (not_lt.2 htarget)

theorem estimateCost_ids :
    estimateCost d target ((pageOps jobs).map (CertJob.mk 0)) = estimateCost d target jobs := by
  simp only [estimateCost, pageOps, List.map_map, List.zipIdx_map, List.foldl_map]
  rfl

theorem splitPoint_ids : splitPoint d ((pageOps jobs).map (CertJob.mk 0)) = splitPoint d jobs := by
  rw [splitPoint, splitPoint, estimateCost_ids]

theorem pageOps_ids (page : List (List CertOp)) : pageOps (page.map (CertJob.mk 0)) = page := by
  rw [pageOps, List.map_map]
  exact List.map_id page

/-- **A page is left as it is** if it costs little enough, or has no place to split it. -/
theorem cutPage_eq_none_iff {page : List (List CertOp)} : cutPage d page = none ↔
    pageCost d page < certPageSize ∨
      ∀ k i, IsPlace page k i → costBefore d page k i < certPageSize / 2 := by
  rw [cutPage, Option.map_eq_none_iff, splitPoint, estimateCost_total, pageOps_ids]
  by_cases hcost : pageCost d page < certPageSize
  · simp [hcost]
  · rw [if_neg hcost, estimateCost_split_iff, pageOps_ids, or_iff_right hcost]

theorem fits_iff_not_jumps {page : List (List CertOp)} (h : cutPage d page = none) :
    Fits d page ↔ ¬ Jumps d page := by
  rw [cutPage_eq_none_iff] at h
  simp only [Fits, Jumps, not_and, not_forall]
  constructor
  · rintro (hcost | hone) hseveral hfull
    · omega
    · omega
  · intro hjumps
    by_cases hcost : pageCost d page < certPageSize
    · exact .inl hcost
    · refine .inr (not_lt.1 fun hseveral => ?_)
      obtain ⟨k, i, hplace, hge⟩ := hjumps hseveral (not_lt.1 hcost)
      exact hge (h.resolve_left hcost k i hplace)

theorem cutPage_eq_some {page l r : List (List CertOp)} (h : cutPage d page = some (l, r)) :
    ∃ left ops right i, page = left ++ ops :: right ∧ 0 < i ∧ i < ops.length ∧
      l = left ++ [ops.take i] ∧ r = ops.drop i :: right := by
  obtain ⟨⟨k, i⟩, hpoint, hparts⟩ := Option.map_eq_some_iff.1 h
  rw [splitPoint] at hpoint
  split_ifs at hpoint
  obtain ⟨j, hj, hpos, hi⟩ := splitWithin_estimateCost _ _ hpoint
  rw [List.getElem?_map] at hj
  obtain ⟨ops, hops, rfl⟩ := Option.map_eq_some_iff.1 hj
  obtain ⟨hlt, hget⟩ := List.getElem?_eq_some_iff.1 hops
  cases hparts
  refine ⟨page.take k, ops, page.drop (k + 1), i, ?_, hpos, hi, ?_, ?_⟩
  · rw [← hget, List.cons_getElem_drop_succ, List.take_append_drop]
  · simp only [hops, Option.getD_some]
  · simp only [hops, Option.getD_some]

/-! ## Termination -/

theorem size_lt_of_cutPage (page l r : List (List CertOp)) (h : cutPage d page = some (l, r)) :
    (l.flatten.length - 1) + (r.flatten.length - 1) < page.flatten.length - 1 := by
  obtain ⟨left, ops, right, i, rfl, hpos, hi, rfl, rfl⟩ := cutPage_eq_some h
  simp only [List.flatten_append, List.flatten_cons, List.flatten_nil, List.append_nil,
    List.length_append, List.length_take, List.length_drop]
  omega

end Cost

section Device

variable {d d' : CertDevice}

theorem pageOps_shift (jobId : ℕ) (jobs : List CertJob) :
    pageOps (jobs.map (CertJob.shift jobId)) = pageOps jobs := by
  rw [pageOps, pageOps, List.map_map]
  refine List.map_congr_left fun j _ => ?_
  rw [Function.comp_apply, CertJob.shift]
  split_ifs <;> rfl

theorem pages_shift (jobId : ℕ) (body : List CertItem) :
    (body.map (CertItem.shift jobId)).flatMap CertItem.pages = body.flatMap CertItem.pages := by
  rw [List.flatMap_map]
  refine List.flatMap_congr fun item _ => ?_
  cases item with
  | page jobs => exact congrArg (fun page => [page]) (pageOps_shift jobId jobs)
  | job j =>
    rw [CertItem.shift]
    rfl

theorem regionPages_shift (jobId : ℕ) (regions : List CertRegion) :
    (regions.map (CertRegion.shift jobId)).flatMap CertRegion.pageOps =
      regions.flatMap CertRegion.pageOps := by
  rw [List.flatMap_map]
  exact List.flatMap_congr fun r _ => pages_shift jobId r.body

theorem SplitStep.cutStep (h : SplitStep d d') :
    CutStep (cutPage d) d.pages d'.pages ∧ cutPage d' = cutPage d ∧ Fits d' = Fits d := by
  obtain ⟨before, after, isSection, pre, post, left, right, j, i, hregions, hsplit⟩ := h
  refine ⟨?_, rfl, rfl⟩
  have hcut : cutPage d (pageOps (left ++ j :: right)) =
      some (pageOps left ++ [j.ops.take i], j.ops.drop i :: pageOps right) := by
    have hlen : (pageOps left).length = left.length := List.length_map _
    rw [cutPage, splitPoint_ids, hsplit, Option.map_some, pageOps_append, pageOps_cons, ← hlen]
    simp
  have hstep := CutStep.mk
    (before.flatMap CertRegion.pageOps ++ pre.flatMap CertItem.pages)
    (post.flatMap CertItem.pages ++ after.flatMap CertRegion.pageOps) hcut
  simp only [List.append_assoc] at hstep
  simp only [CertDevice.pages, hregions, List.flatMap_append, List.flatMap_cons,
    CertRegion.pageOps, regionPages_shift, pages_shift, CertItem.pages, List.append_assoc,
    List.cons_append, List.nil_append]
  rw [pageOps_append (left.map _), pageOps_shift, pageOps_cons _ (right.map _), pageOps_shift]
  exact hstep

theorem cutPage_of_normal (h : Normal SplitStep d) {page : List (List CertOp)}
    (hpage : page ∈ d.pages) : cutPage d page = none := by
  obtain ⟨r, hr, hpage⟩ := List.mem_flatMap.1 hpage
  obtain ⟨item, hitem, hpage⟩ := List.mem_flatMap.1 hpage
  cases item with
  | job j => cases hpage
  | page jobs =>
    obtain rfl := List.mem_singleton.1 hpage
    rw [cutPage, splitPoint_ids, Option.map_eq_none_iff]
    by_contra hsome
    obtain ⟨⟨k, i⟩, hpoint⟩ := Option.ne_none_iff_exists'.1 hsome
    have hwithin := hpoint
    rw [splitPoint] at hwithin
    split_ifs at hwithin
    obtain ⟨j, hj, -⟩ := splitWithin_estimateCost _ _ hwithin
    obtain ⟨hlt, hget⟩ := List.getElem?_eq_some_iff.1 hj
    have hjobs : jobs = jobs.take k ++ j :: jobs.drop (k + 1) := by
      rw [← hget, List.cons_getElem_drop_succ, List.take_append_drop]
    have hk : (jobs.take k).length = k := List.length_take_of_le hlt.le
    obtain ⟨before, after, hregions⟩ := List.append_of_mem hr
    obtain ⟨pre, post, hbody⟩ := List.append_of_mem hitem
    rw [hjobs] at hpoint hbody
    exact h _ (SplitStep.mk d before after r.isSection pre post (jobs.take k)
      (jobs.drop (k + 1)) j i (by rw [hregions, ← hbody]) (by rw [hk]; exact hpoint))

theorem cutStep_run (h : Relation.ReflTransGen SplitStep d d') :
    Relation.ReflTransGen (CutStep (cutPage d)) d.pages d'.pages ∧ cutPage d' = cutPage d ∧
      Fits d' = Fits d := by
  induction h with
  | refl => exact ⟨.refl, rfl, rfl⟩
  | tail _ hlast ih =>
    obtain ⟨hstep, hcut, hfits⟩ := hlast.cutStep
    rw [ih.2.1] at hstep hcut
    exact ⟨ih.1.tail hstep, hcut, hfits.trans ih.2.2⟩

theorem wellFounded_splitStep : WellFounded fun d' d => SplitStep d d' := by
  let size : CertDevice → ℕ := fun d => (d.pages.map fun page => page.flatten.length - 1).sum
  refine Subrelation.wf (fun h => ?_) (measure size).wf
  exact sum_lt_of_cutStep size_lt_of_cutPage h.cutStep.1

theorem fits_of_rewritesTo_iff (h : RewritesTo SplitStep d d') :
    (∀ page ∈ d'.pages, Fits d' page) ↔
      ∀ page ∈ d.pages, ∀ piece, Piece (cutPage d) page piece → ¬ Jumps d piece := by
  obtain ⟨hcuts, hcut, hfits⟩ := cutStep_run h.1
  rw [hfits, forall_of_rewritesTo hcuts fun page hpage => hcut ▸ cutPage_of_normal h.2 hpage]
  constructor
  · intro h page hpage piece hpiece hjumps
    -- A page that jumps is not split.
    have hnone : cutPage d piece = none := cutPage_eq_none_iff.2 (.inr hjumps.2.2)
    exact (fits_iff_not_jumps hnone).1 (h page hpage piece hpiece hnone) hjumps
  · intro h page hpage piece hpiece hnone
    exact (fits_iff_not_jumps hnone).2 (h page hpage piece hpiece)

/-- A job of two writes, the first of under half a page and the second of over half. -/
def largeSecond : CertDevice where
  chains symbol := if symbol = "small" then some [⟨"small_data", 0, 740, false⟩]
    else if symbol = "large" then some [⟨"large_data", 0, 1500, false⟩] else none
  globals symbol := if symbol = "small_data" then some 740
    else if symbol = "large_data" then some 1500 else none
  regions := [⟨false, [.job ⟨0, [.ucDmaWriteDesSync "small", .ucDmaWriteDesSync "large"]⟩]⟩]

def largeSecondPaged : CertDevice :=
  { largeSecond with regions :=
      [⟨false, [.page [⟨0, [.ucDmaWriteDesSync "small", .ucDmaWriteDesSync "large"]⟩]]⟩] }

def opCost (d : CertDevice) (o : CertOp) : ℕ :=
  (updateCostForOp d o { text := 0, data := 0 }).total

theorem chainCost_add (bds : List CertUcDmaBd) (x : ℕ) :
    bds.foldl (fun data bd =>
        (data + 16 + ((d.globals bd.remoteAddress).getD 0) * 4) % 2 ^ 32) x % 2 ^ 32 =
      (x + bds.foldl (fun data bd =>
        (data + 16 + ((d.globals bd.remoteAddress).getD 0) * 4) % 2 ^ 32) 0) % 2 ^ 32 := by
  induction bds generalizing x with
  | nil => simp
  | cons bd bds ih =>
    rw [List.foldl_cons, List.foldl_cons, ih, Nat.add_mod x, ih (_ % _)]
    omega

theorem total_updateCostForOp (o : CertOp) (c : PageCost) :
    (updateCostForOp d o c).total = (c.total + opCost d o) % 2 ^ 32 := by
  cases o with
  | ucDmaWriteDesSync symbol =>
    have hdata := chainCost_add (d := d) ((d.chains symbol).getD []) c.data
    simp only [updateCostForOp, opCost, PageCost.total] at hdata ⊢
    omega
  | _ =>
    simp only [updateCostForOp, opCost, PageCost.total]
    omega

theorem not_jumps_of_half {ops : List CertOp} (h : ∀ o ∈ ops, opCost d o ≤ certPageSize / 2) :
    ¬ Jumps d [ops] := by
  rintro ⟨hseveral, hfull, hplaces⟩
  rw [List.flatten_singleton] at hseveral
  rcases List.eq_nil_or_concat' ops with rfl | ⟨init, last, rfl⟩
  · cases hseveral
  · rw [List.length_append, List.length_singleton] at hseveral
    have hbefore := hplaces 0 init.length ⟨init ++ [last], rfl, by omega, by simp⟩
    have hlast := h last (List.mem_append_right _ List.mem_cons_self)
    have hbeforeEq : costBefore d [init ++ [last]] 0 init.length = (costFrom d {} init).total := by
      simp [costBefore, opsBefore]
    have htotal : pageCost d [init ++ [last]] =
        ((costFrom d {} init).total + opCost d last) % 2 ^ 32 := by
      rw [pageCost, List.flatten_singleton, costFrom_append]
      exact total_updateCostForOp last _
    rw [hbeforeEq] at hbefore
    rw [htotal, certPageSize] at hfull
    rw [certPageSize] at hbefore hlast
    omega

end Device

end MlirAie.Cert
