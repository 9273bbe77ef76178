import MlirAie.Cert.Pages
import MlirAie.Lib.Extremes

/-!
# Paging keeps the program

Wrapping, isolating and splitting keep the operations in the order they are emitted, as long as a
job with a full-page operation has nothing after it on its page, and nothing before it that would
come after its own earlier operations.

* `CertRegion.ops`: the operations in the order of the device, that the patterns keep;
* `PagesInv`, `Isolated`: what the later patterns keep;
* **`certPages_preserves`**: the program before and after.
-/

namespace MlirAie.Cert

open Lib

/-! ## The order of the device -/

def CertItem.ops (it : CertItem) : List CertOp := jobsOps it.jobs

def CertRegion.ops (r : CertRegion) : List CertOp := r.body.flatMap CertItem.ops

@[grind =] def CertDevice.ops (d : CertDevice) : List (List CertOp) := d.regions.map CertRegion.ops

def CertRegion.StandaloneLast (r : CertRegion) : Prop :=
  ∀ pre j post, r.body = pre ++ .job j :: post →
    j.ops = [] ∨ ∀ jobs, .page jobs ∈ post → jobsOps jobs = []

/-- A page with a job that has a full-page operation: no operation follows the job, and none of its
own precedes the full-page operation unless the job is the first with any. -/
def LastOnPage (jobs : List CertJob) : Prop :=
  ∀ left j right, jobs = left ++ j :: right → (∃ o ∈ j.ops, o.isFullPage = true) →
    jobsOps right = [] ∧
      (jobsOps left = [] ∨ ∃ o ops, j.ops = o :: ops ∧ o.isFullPage = true)

@[simp] theorem jobsOps_nil : jobsOps [] = [] := rfl

@[simp] theorem jobsOps_cons (j : CertJob) (jobs : List CertJob) :
    jobsOps (j :: jobs) = j.ops ++ jobsOps jobs := rfl

@[simp] theorem jobsOps_append (js ks : List CertJob) :
    jobsOps (js ++ ks) = jobsOps js ++ jobsOps ks := List.flatMap_append

theorem sortJobs_eq {jobs : List CertJob} (h : (jobs.map CertJob.jobId).Pairwise (· < ·)) :
    sortJobs jobs = jobs := by
  refine List.Pairwise.insertionSort_eq ?_
  rw [List.pairwise_map] at h
  exact h.imp fun hlt => le_of_lt hlt

theorem bodyOps_eq {body : List CertItem} (isSection : Bool)
    (hlast : (CertRegion.mk isSection body).StandaloneLast) :
    body.flatMap CertItem.ops = (CertRegion.mk isSection body).pages.flatMap jobsOps ++
      jobsOps (CertRegion.mk isSection body).standalone := by
  induction body with
  | nil => rfl
  | cons it body ih =>
    have hrest : (CertRegion.mk isSection body).StandaloneLast := fun pre j post h =>
      hlast (it :: pre) j post (congrArg (it :: ·) h)
    rw [List.flatMap_cons, ih hrest]
    cases it with
    | page jobs => simp [CertRegion.pages, CertRegion.standalone, CertItem.ops, CertItem.jobs]
    | job j =>
      rcases hlast [] j body rfl with hj | hpages
      · simp [CertRegion.pages, CertRegion.standalone, CertItem.ops, CertItem.jobs, hj]
      · have hnil : (CertRegion.mk isSection body).pages.flatMap jobsOps = [] := by
          rw [List.flatMap_eq_nil_iff]
          intro jobs hjobs
          obtain ⟨it, hit, heq⟩ := List.mem_filterMap.1 hjobs
          cases it with
          | page js =>
            cases heq
            exact hpages jobs hit
          | job k => cases heq
        have hpages' : (CertRegion.mk isSection (.job j :: body)).pages.flatMap jobsOps = [] := hnil
        rw [hnil, hpages']
        simp [CertRegion.standalone, CertItem.ops, CertItem.jobs]

theorem sublist_of_mem_pages {r : CertRegion} {jobs : List CertJob} (h : jobs ∈ r.pages) :
    .page jobs ∈ r.body := by
  obtain ⟨it, hit, heq⟩ := List.mem_filterMap.1 h
  cases it with
  | page js =>
    cases heq
    exact hit
  | job k => cases heq

/-- Where the jobs of each page and the standalone jobs are in the order of their ids, and these
come last, a region is emitted in the order of the device. -/
theorem emit_eq_ops {r : CertRegion}
    (hpages : ∀ it ∈ r.body, (it.jobs.map CertJob.jobId).Pairwise (· < ·))
    (hstandalone : (r.standalone.map CertJob.jobId).Pairwise (· < ·)) (hlast : r.StandaloneLast) :
    r.emit = r.ops := by
  have hemit : r.pages.flatMap (fun jobs => jobsOps (sortJobs jobs)) = r.pages.flatMap jobsOps := by
    refine List.flatMap_congr fun jobs hjobs => ?_
    have hsorted : (jobs.map CertJob.jobId).Pairwise (· < ·) :=
      hpages _ (sublist_of_mem_pages hjobs)
    rw [sortJobs_eq hsorted]
  rw [CertRegion.emit, hemit, sortJobs_eq hstandalone, ite_self]
  exact (bodyOps_eq r.isSection hlast).symm

/-! ## Wrapping -/

section Wrap

variable {d d' : CertDevice}

theorem WrapStep.jobs (h : WrapStep d d') :
    d'.regions.map CertRegion.jobs = d.regions.map CertRegion.jobs := by
  obtain ⟨before, after, isSection, pre, post, j, h⟩ := h
  rw [h]
  simp [CertRegion.jobs, CertItem.jobs]

theorem ops_eq_jobsOps (r : CertRegion) : r.ops = jobsOps r.jobs := by
  rw [CertRegion.ops, CertRegion.jobs, jobsOps, List.flatMap_assoc]
  rfl

theorem ops_eq_map (d : CertDevice) : d.ops = (d.regions.map CertRegion.jobs).map jobsOps := by
  rw [CertDevice.ops, List.map_map]
  exact List.map_congr_left fun r _ => ops_eq_jobsOps r

theorem ids_eq_flatten (d : CertDevice) :
    d.ids = (d.regions.map CertRegion.jobs).flatten.map CertJob.jobId := by
  rw [CertDevice.ids, CertDevice.jobs, List.flatMap_def]

theorem paged_of_normal (h : Normal WrapStep d) :
    ∀ r ∈ d.regions, ∀ it ∈ r.body, ∃ jobs, it = .page jobs := by
  intro r hr it hit
  cases it with
  | page jobs => exact ⟨jobs, rfl⟩
  | job j =>
    obtain ⟨before, after, hregions⟩ := List.append_of_mem hr
    obtain ⟨pre, post, hbody⟩ := List.append_of_mem hit
    obtain ⟨isSection, body⟩ := r
    cases hbody
    exact absurd (.mk d before after isSection pre post j hregions) (h _)

end Wrap

/-! ## Isolating -/

/-- The pages of a device, region by region, have their jobs in the order of their ids, all
different, and there are no standalone jobs. -/
structure PagesInv (d : CertDevice) : Prop where
  nodup : d.ids.Nodup
  sorted : ∀ r ∈ d.regions, ∀ it ∈ r.body, (it.jobs.map CertJob.jobId).Pairwise (· < ·)
  paged : ∀ r ∈ d.regions, ∀ it ∈ r.body, ∃ jobs, it = .page jobs

def CertDevice.AllLastOnPage (d : CertDevice) : Prop :=
  ∀ r ∈ d.regions, ∀ it ∈ r.body, LastOnPage it.jobs

section Isolate

variable {maxJobId : ℕ} {left right : List CertJob} {j : CertJob} {pages : List (List CertJob)}

/-- What isolating does: it moves a job that is one full-page operation to a page of its own, or
takes one with more operations apart. -/
theorem isolate_eq_some (h : isolate maxJobId left j right = some pages) :
    ∃ xs o ys, j.ops = xs ++ o :: ys ∧ (∀ p ∈ xs, p.isFullPage = false) ∧ o.isFullPage = true ∧
      ((xs = [] ∧ ys = [] ∧ left ++ right ≠ [] ∧ pages = [left ++ right, [j]]) ∨
        (pages = (if xs = [] then [] else [[⟨j.jobId, xs⟩]]) ++
          (if left ++ right = [] then [] else [left ++ right]) ++
          [[⟨(maxJobId + 1) % 2 ^ 32, [o]⟩]] ++
          (if ys = [] then [] else [[⟨(maxJobId + 2) % 2 ^ 32, ys⟩]]))) := by
  rw [isolate] at h
  cases hdrop : j.ops.dropWhile fun o => !o.isFullPage with
  | nil =>
    rw [hdrop] at h
    cases h
  | cons o ys =>
    rw [hdrop] at h
    have hops : j.ops = (j.ops.takeWhile fun o => !o.isFullPage) ++ o :: ys := by
      rw [← hdrop, List.takeWhile_append_dropWhile]
    have hfull : o.isFullPage = true := by
      have hnot := List.head_dropWhile_not (fun o : CertOp => !o.isFullPage)
        (l := j.ops) (by rw [hdrop]; exact List.cons_ne_nil _ _)
      simpa [hdrop] using hnot
    refine ⟨_, o, ys, hops, fun p hp => ?_, hfull, ?_⟩
    · have hall := List.all_eq_true.1
        (List.all_takeWhile (l := j.ops) (p := fun o : CertOp => !o.isFullPage)) p hp
      simpa using hall
    · simp only at h
      by_cases hone : j.ops.length = 1
      · rw [if_pos hone] at h
        split_ifs at h with hothers
        cases h
        -- the one operation is the full-page operation
        have hlen := congrArg List.length hops
        rw [hone, List.length_append, List.length_cons] at hlen
        exact .inl ⟨List.length_eq_zero_iff.1 (by omega), List.length_eq_zero_iff.1 (by omega),
          hothers, rfl⟩
      · rw [if_neg hone] at h
        exact .inr (Option.some.inj h).symm

/-- Where isolating does nothing, a job with a full-page operation is that operation, alone on its
page. -/
theorem isolate_eq_none (h : isolate maxJobId left j right = none)
    (hfull : ∃ o ∈ j.ops, o.isFullPage = true) :
    left = [] ∧ right = [] ∧ ∃ o, j.ops = [o] := by
  obtain ⟨o, ho, hfull⟩ := hfull
  rw [isolate] at h
  cases hdrop : j.ops.dropWhile fun o => !o.isFullPage with
  | nil =>
    have hall := List.dropWhile_eq_nil_iff.1 hdrop o ho
    rw [hfull] at hall
    cases hall
  | cons p ys =>
    rw [hdrop] at h
    simp only at h
    split_ifs at h with hone hothers
    obtain ⟨hleft, hright⟩ := List.append_eq_nil_iff.1 hothers
    exact ⟨hleft, hright, List.length_eq_one_iff.1 hone⟩

/-- The operations of the new pages are those of the page. -/
theorem isolate_ops (h : isolate maxJobId left j right = some pages)
    (hlast : LastOnPage (left ++ j :: right)) :
    pages.flatMap jobsOps = jobsOps (left ++ j :: right) := by
  obtain ⟨xs, o, ys, hops, hxs, ho, hpages⟩ := isolate_eq_some h
  have hfull : ∃ p ∈ j.ops, p.isFullPage = true := by
    rw [hops]
    exact ⟨o, List.mem_append_right xs List.mem_cons_self, ho⟩
  obtain ⟨hright, hleft⟩ := hlast left j right rfl hfull
  have hfirst : jobsOps left = [] ∨ xs = [] := by
    refine hleft.imp_right ?_
    rintro ⟨p, ps, hp, hpfull⟩
    cases xs with
    | nil => rfl
    | cons x xs =>
      rw [hops] at hp
      obtain ⟨rfl, _⟩ := List.cons_eq_cons.1 hp
      rw [hxs x List.mem_cons_self] at hpfull
      cases hpfull
  rw [jobsOps_append, jobsOps_cons, hops, hright]
  rcases hpages with ⟨rfl, rfl, _, rfl⟩ | rfl
  · simp [hright, hops]
  · have hothers : (if left ++ right = [] then [] else [left ++ right]).flatMap jobsOps =
        jobsOps left := by
      split_ifs with hnil
      · rw [(List.append_eq_nil_iff.1 hnil).1]
        rfl
      · simp [hright]
    have hbefore : (if xs = [] then [] else [[(⟨j.jobId, xs⟩ : CertJob)]]).flatMap jobsOps =
        xs := by
      split_ifs with hnil
      · exact hnil.symm
      · simp
    have hafter : (if ys = [] then [] else
        [[(⟨(maxJobId + 2) % 2 ^ 32, ys⟩ : CertJob)]]).flatMap jobsOps = ys := by
      split_ifs with hnil
      · exact hnil.symm
      · simp
    rw [List.flatMap_append, List.flatMap_append, List.flatMap_append, hbefore, hothers, hafter]
    rcases hfirst with hnil | hnil
    · simp [hnil]
    · simp [hnil]

theorem rest_not_full (hj : ∃ o ∈ j.ops, o.isFullPage = true)
    (hlast : LastOnPage (left ++ j :: right)) :
    ∀ k ∈ left ++ right, ∀ o ∈ k.ops, o.isFullPage = false := by
  intro k hk o ho
  rw [← Bool.not_eq_true]
  intro hfull
  rcases List.mem_append.1 hk with hk | hk
  · obtain ⟨l₁, l₂, rfl⟩ := List.append_of_mem hk
    have hlater := (hlast l₁ k (l₂ ++ j :: right) (by simp) ⟨o, ho, hfull⟩).1
    rw [jobsOps_append, jobsOps_cons] at hlater
    obtain ⟨p, hp, _⟩ := hj
    have hnil := (List.append_eq_nil_iff.1 (List.append_eq_nil_iff.1 hlater).2).1
    rw [hnil] at hp
    cases hp
  · have hright := (hlast left j right rfl hj).1
    have hmem : o ∈ jobsOps right := List.mem_flatMap.2 ⟨k, hk, ho⟩
    rw [hright] at hmem
    cases hmem

theorem lastOnPage_of_not_full {jobs : List CertJob}
    (h : ∀ k ∈ jobs, ∀ o ∈ k.ops, o.isFullPage = false) : LastOnPage jobs := by
  rintro left j right rfl ⟨o, ho, hfull⟩
  rw [h j (List.mem_append_right left List.mem_cons_self) o ho] at hfull
  cases hfull

theorem lastOnPage_singleton (j : CertJob) : LastOnPage [j] := by
  rintro left k right heq -
  cases left with
  | nil =>
    cases heq
    exact ⟨rfl, .inl rfl⟩
  | cons l left =>
    have hlen := congrArg List.length heq
    simp at hlen

/-- The new pages are those of single jobs, and that of the jobs that stay. -/
theorem mem_isolate (h : isolate maxJobId left j right = some pages) {jobs : List CertJob}
    (hjobs : jobs ∈ pages) : jobs = left ++ right ∨ ∃ k, jobs = [k] := by
  obtain ⟨xs, o, ys, _, _, _, hpages⟩ := isolate_eq_some h
  rcases hpages with ⟨_, _, _, rfl⟩ | rfl
  · rcases List.mem_cons.1 hjobs with rfl | hjobs
    · exact .inl rfl
    · exact .inr ⟨j, List.mem_singleton.1 hjobs⟩
  · simp only [List.mem_append] at hjobs
    rcases hjobs with ((hjobs | hjobs) | hjobs) | hjobs
    · split_ifs at hjobs
      · cases hjobs
      · exact .inr ⟨_, List.mem_singleton.1 hjobs⟩
    · split_ifs at hjobs
      · cases hjobs
      · exact .inl (List.mem_singleton.1 hjobs)
    · exact .inr ⟨_, List.mem_singleton.1 hjobs⟩
    · split_ifs at hjobs
      · cases hjobs
      · exact .inr ⟨_, List.mem_singleton.1 hjobs⟩

/-- The ids of the new pages: those of the jobs that stay, perhaps that of the job, and new ones. -/
theorem isolate_ids (h : isolate maxJobId left j right = some pages)
    (hroom : maxJobId + 2 < 2 ^ 32) (hj : j.jobId ≤ maxJobId) :
    ∃ extra : List ℕ, (pages.flatten.map CertJob.jobId).Perm
        (extra ++ (left ++ right).map CertJob.jobId) ∧ extra.Nodup ∧
      ∀ x ∈ extra, x = j.jobId ∨ maxJobId < x := by
  have h₁ : (maxJobId + 1) % 2 ^ 32 = maxJobId + 1 := Nat.mod_eq_of_lt (by omega)
  have h₂ : (maxJobId + 2) % 2 ^ 32 = maxJobId + 2 := Nat.mod_eq_of_lt hroom
  obtain ⟨xs, o, ys, _, _, _, hpages⟩ := isolate_eq_some h
  rcases hpages with ⟨_, _, _, rfl⟩ | rfl
  · refine ⟨[j.jobId], ?_, List.nodup_singleton _, fun x hx => .inl (List.mem_singleton.1 hx)⟩
    simp only [List.flatten_cons, List.flatten_nil, List.append_nil, List.map_append,
      List.map_cons, List.map_nil]
    exact List.perm_append_comm
  · have hothers : (if left ++ right = [] then [] else [left ++ right]).flatten =
        left ++ right := by
      split_ifs with hnil
      · exact hnil.symm
      · simp
    refine ⟨(if xs = [] then [] else [j.jobId]) ++ [maxJobId + 1] ++
      (if ys = [] then [] else [maxJobId + 2]), ?_, ?_, fun x hx => ?_⟩
    · rw [List.flatten_append, List.flatten_append, List.flatten_append, hothers, h₁, h₂]
      split_ifs <;> simp [List.perm_iff_count, List.count_append, List.count_cons] <;> omega
    · split_ifs <;> simp <;> omega
    · simp only [List.mem_append, List.mem_singleton] at hx
      rcases hx with (hx | rfl) | hx
      · split_ifs at hx
        · cases hx
        · exact .inl (List.mem_singleton.1 hx)
      · exact .inr (Nat.lt_succ_self _)
      · split_ifs at hx
        · cases hx
        · rw [List.mem_singleton.1 hx]
          exact .inr (by omega)

end Isolate

section Step

variable {d d' : CertDevice}

theorem le_maxJobId {x : ℕ} (h : x ∈ d.ids) : x ≤ d.maxJobId := (le_foldl_max 0 _).2 x h

/-- The items of a device once one of a region is replaced are the new ones and the others. -/
theorem mem_replaced {before after : List CertRegion} {isSection : Bool}
    {pre post items : List CertItem} {P : CertItem → Prop} (it : CertItem)
    (h : ∀ r ∈ before ++ ⟨isSection, pre ++ it :: post⟩ :: after, ∀ it ∈ r.body, P it)
    (hitems : ∀ it ∈ items, P it) :
    ∀ r ∈ before ++ ⟨isSection, pre ++ items ++ post⟩ :: after, ∀ it ∈ r.body, P it := by
  intro r hr it' hit
  rcases List.mem_append.1 hr with hr | hr
  · exact h r (List.mem_append_left _ hr) it' hit
  · rcases List.mem_cons.1 hr with rfl | hr
    · have hbody := h _ (List.mem_append_right before List.mem_cons_self)
      rcases List.mem_append.1 hit with hit | hit
      · rcases List.mem_append.1 hit with hit | hit
        · exact hbody it' (List.mem_append_left _ hit)
        · exact hitems it' hit
      · exact hbody it' (List.mem_append_right pre (List.mem_cons_of_mem it hit))
    · exact h r (List.mem_append_right before (List.mem_cons_of_mem _ hr)) it' hit

/-- The ids stay different where the replaced jobs keep theirs or get new ones. -/
theorem nodup_replaced {l r old new extra : List ℕ} {x : ℕ} {m : ℕ}
    (hnodup : (l ++ (old ++ r)).Nodup) (hperm : new.Perm (extra ++ (old.erase x)))
    (hx : x ∈ old) (hextra : extra.Nodup) (hnew : ∀ y ∈ extra, y = x ∨ m < y)
    (hle : ∀ y ∈ l ++ (old ++ r), y ≤ m) : (l ++ (new ++ r)).Nodup := by
  have hold : (l ++ (old ++ r)).Perm (x :: (l ++ (old.erase x ++ r))) := by
    have := (List.perm_cons_erase hx).append_right r
    refine (this.append_left l).trans ?_
    exact List.perm_middle
  obtain ⟨hnotin, hrest⟩ := List.nodup_cons.1 (hold.nodup_iff.1 hnodup)
  have hall : (l ++ (new ++ r)).Perm (extra ++ (l ++ (old.erase x ++ r))) := by
    refine ((hperm.append_right r).append_left l).trans ?_
    rw [List.append_assoc]
    exact List.perm_append_comm_assoc _ _ _
  refine hall.nodup_iff.2 (List.nodup_append.2 ⟨hextra, hrest, ?_⟩)
  rintro a ha b hb rfl
  rcases hnew a ha with rfl | hlt
  · exact hnotin hb
  · have hmem := hold.symm.subset (List.mem_cons_of_mem x hb)
    exact absurd (hle a hmem) (not_le.2 hlt)

/-- The ids of a device, with those of some items of a region written out. -/
theorem exists_ids (before after : List CertRegion) (isSection : Bool) (pre post : List CertItem) :
    ∃ l r : List ℕ, ∀ items : List CertItem,
      ((before ++ ⟨isSection, pre ++ items ++ post⟩ :: after).flatMap CertRegion.jobs).map
        CertJob.jobId = l ++ ((items.flatMap CertItem.jobs).map CertJob.jobId ++ r) := by
  refine ⟨(before.flatMap CertRegion.jobs ++ pre.flatMap CertItem.jobs).map CertJob.jobId,
    (post.flatMap CertItem.jobs ++ after.flatMap CertRegion.jobs).map CertJob.jobId,
    fun items => ?_⟩
  simp [CertRegion.jobs]

/-- **One isolation** keeps the operations and the ids apart. -/
theorem IsolateStep.keeps (h : IsolateStep d d') (hinv : PagesInv d) (hlast : d.AllLastOnPage)
    (hroom : d.maxJobId + 2 < 2 ^ 32) : PagesInv d' ∧ d'.AllLastOnPage ∧ d'.ops = d.ops := by
  obtain ⟨before, after, isSection, pre, post, left, right, j, pages, h, hisolate⟩ := h
  have hregion : (⟨isSection, pre ++ .page (left ++ j :: right) :: post⟩ : CertRegion) ∈
      d.regions := h ▸ List.mem_append_right before List.mem_cons_self
  have hpage : CertItem.page (left ++ j :: right) ∈
      pre ++ CertItem.page (left ++ j :: right) :: post :=
    List.mem_append_right pre List.mem_cons_self
  have hlastpage : LastOnPage (left ++ j :: right) := hlast _ hregion _ hpage
  have hsortedpage : ((left ++ j :: right).map CertJob.jobId).Pairwise (· < ·) :=
    hinv.sorted _ hregion _ hpage
  have hfull : ∃ o ∈ j.ops, o.isFullPage = true := by
    obtain ⟨xs, o, ys, hops, _, ho, _⟩ := isolate_eq_some hisolate
    exact ⟨o, hops ▸ List.mem_append_right xs List.mem_cons_self, ho⟩
  obtain ⟨l, r, hids⟩ := exists_ids before after isSection pre post
  have hold : d.ids = l ++ ((left ++ j :: right).map CertJob.jobId ++ r) := by
    have hpage := hids [.page (left ++ j :: right)]
    rw [List.append_assoc, List.singleton_append] at hpage
    rw [CertDevice.ids, CertDevice.jobs, h, hpage]
    simp [CertItem.jobs]
  have hnew : (pages.map CertItem.page).flatMap CertItem.jobs = pages.flatten := by
    rw [List.flatMap_map, List.flatten_eq_flatMap]
    rfl
  refine ⟨⟨?_, ?_, ?_⟩, ?_, ?_⟩
  · have hj : j.jobId ≤ d.maxJobId := by
      refine le_maxJobId ?_
      rw [hold]
      simp
    obtain ⟨extra, hperm, hextra, hfresh⟩ := isolate_ids hisolate hroom hj
    have hnodup := hinv.nodup
    have hle : ∀ y ∈ d.ids, y ≤ d.maxJobId := fun y => le_maxJobId
    rw [hold] at hnodup hle
    rw [CertDevice.ids, CertDevice.jobs, hids, hnew]
    refine nodup_replaced hnodup (hperm.trans ?_) (by simp) hextra hfresh hle
    refine List.Perm.append_left extra ?_
    have hmid : ((left ++ j :: right).map CertJob.jobId).Perm
        (j.jobId :: (left ++ right).map CertJob.jobId) := by
      simp
    exact ((hmid.erase j.jobId).trans (by rw [List.erase_cons_head])).symm
  · refine mem_replaced (P := fun it => (it.jobs.map CertJob.jobId).Pairwise (· < ·)) _
      (h ▸ hinv.sorted) fun it hit => ?_
    obtain ⟨jobs, hjobs, rfl⟩ := List.mem_map.1 hit
    rcases mem_isolate hisolate hjobs with rfl | ⟨k, rfl⟩
    · refine hsortedpage.sublist ?_
      exact (List.Sublist.append_left (List.sublist_cons_self j right) left).map _
    · exact List.pairwise_singleton _ _
  · refine mem_replaced (P := fun it => ∃ jobs, it = .page jobs) _ (h ▸ hinv.paged) fun it hit => ?_
    obtain ⟨jobs, _, rfl⟩ := List.mem_map.1 hit
    exact ⟨jobs, rfl⟩
  · rw [CertDevice.AllLastOnPage, h] at hlast
    refine mem_replaced (P := fun it => LastOnPage it.jobs) _ hlast fun it hit => ?_
    obtain ⟨jobs, hjobs, rfl⟩ := List.mem_map.1 hit
    rcases mem_isolate hisolate hjobs with rfl | ⟨k, rfl⟩
    · exact lastOnPage_of_not_full (rest_not_full hfull hlastpage)
    · exact lastOnPage_singleton k
  · have hops : (pages.map CertItem.page).flatMap CertItem.ops =
        CertItem.ops (.page (left ++ j :: right)) := by
      rw [List.flatMap_map]
      exact isolate_ops hisolate hlastpage
    rw [CertDevice.ops, CertDevice.ops, h]
    simp only [List.map_append, List.map_cons, CertRegion.ops, List.flatMap_append,
      List.flatMap_cons, hops, List.append_assoc]

/-- **After isolating**, every full-page operation is the only operation of the only job of its
page. -/
def Isolated (d : CertDevice) : Prop :=
  ∀ r ∈ d.regions, ∀ it ∈ r.body, ∀ j ∈ it.jobs, (∃ o ∈ j.ops, o.isFullPage = true) →
    (∃ o, j.ops = [o]) ∧ it = .page [j]

theorem isolated_of_normal (hinv : PagesInv d) (h : Normal IsolateStep d) : Isolated d := by
  intro r hr it hit j hj hfull
  obtain ⟨jobs, rfl⟩ := hinv.paged r hr it hit
  obtain ⟨before, after, hregions⟩ := List.append_of_mem hr
  obtain ⟨pre, post, hbody⟩ := List.append_of_mem hit
  obtain ⟨left, right, rfl⟩ := List.append_of_mem (show j ∈ jobs from hj)
  obtain ⟨isSection, body⟩ := r
  cases hbody
  cases hisolate : isolate d.maxJobId left j right with
  | some pages =>
    exact absurd (.mk d before after isSection pre post left right j pages hregions hisolate) (h _)
  | none =>
    obtain ⟨rfl, rfl, hone⟩ := isolate_eq_none hisolate hfull
    exact ⟨hone, rfl⟩

end Step

/-! ## Splitting -/

def PageCost.SplitWithin (jobs : List CertJob) (c : PageCost) : Prop :=
  ∀ k i, c.split = some (k, i) → ∃ j, jobs[k]? = some j ∧ 0 < i ∧ i < j.ops.length

section Split

variable {d d' : CertDevice} {jobs : List CertJob} {target k : ℕ} {c : PageCost} {j : CertJob}

theorem updateCostForOp_split (o : CertOp) : (updateCostForOp d o c).split = c.split := by
  cases o <;> rfl

theorem splitWithin_estimateOp {o : CertOp × ℕ} (hj : jobs[k]? = some j) (ho : o.2 < j.ops.length)
    (h : c.SplitWithin jobs) : (estimateOp d target k j.ops.length c o).SplitWithin jobs := by
  have hstart : (if c.split = none ∧ o.2 ≠ 0 ∧ c.total ≥ target then
      { c with split := some (k, o.2) } else c).SplitWithin jobs := by
    split_ifs with hif
    · intro k' i heq
      cases heq
      exact ⟨j, hj, Nat.pos_of_ne_zero hif.2.1, ho⟩
    · exact h
  rw [estimateOp]
  set start := if c.split = none ∧ o.2 ≠ 0 ∧ c.total ≥ target then
    { c with split := some (k, o.2) } else c
  split_ifs with hif
  · intro k' i heq
    cases heq
    exact ⟨j, hj, Nat.succ_pos _, hif.2.2⟩
  · intro k' i heq
    rw [updateCostForOp_split] at heq
    exact hstart k' i heq

theorem splitWithin_foldl {ops : List (CertOp × ℕ)} (hj : jobs[k]? = some j)
    (hops : ∀ o ∈ ops, o.2 < j.ops.length) (h : c.SplitWithin jobs) :
    (ops.foldl (estimateOp d target k j.ops.length) c).SplitWithin jobs := by
  induction ops generalizing c with
  | nil => exact h
  | cons o ops ih =>
    exact ih (fun p hp => hops p (List.mem_cons_of_mem o hp))
      (splitWithin_estimateOp hj (hops o List.mem_cons_self) h)

theorem splitWithin_estimateCost : (estimateCost d target jobs).SplitWithin jobs := by
  have hfold : ∀ (js : List (CertJob × ℕ)) (c : PageCost), (∀ e ∈ js, jobs[e.2]? = some e.1) →
      c.SplitWithin jobs → (js.foldl (fun c job =>
        job.1.ops.zipIdx.foldl (estimateOp d target job.2 job.1.ops.length) c) c).SplitWithin
          jobs := by
    intro js
    induction js with
    | nil => exact fun c _ h => h
    | cons e js ih =>
      intro c hjs h
      refine ih _ (fun p hp => hjs p (List.mem_cons_of_mem e hp))
        (splitWithin_foldl (hjs e List.mem_cons_self) (fun o ho => ?_) h)
      exact (List.getElem?_eq_some_iff.1 (List.mk_mem_zipIdx_iff_getElem?.1 ho)).1
  refine hfold _ _ (fun e he => List.mk_mem_zipIdx_iff_getElem?.1 he) fun k i heq => ?_
  cases heq

theorem splitPoint_within {left right : List CertJob} {i : ℕ}
    (h : splitPoint d (left ++ j :: right) = some (left.length, i)) : 0 < i ∧ i < j.ops.length := by
  rw [splitPoint] at h
  split_ifs at h
  obtain ⟨k, hk, hi⟩ := splitWithin_estimateCost _ _ h
  rw [List.getElem?_append_right le_rfl, Nat.sub_self, List.getElem?_cons_zero] at hk
  cases hk
  exact hi

/-- The id of a job once there is room after `s`. -/
@[grind =] def shiftId (s x : ℕ) : ℕ := if s < x then x + 1 else x

theorem shiftId_strictMono (s : ℕ) : StrictMono (shiftId s) := by
  intro x y hxy
  rw [shiftId, shiftId]
  split_ifs <;> omega

theorem shiftId_ne (s x : ℕ) : shiftId s x ≠ s + 1 := by
  rw [shiftId]
  split_ifs <;> omega

theorem jobId_shift {s : ℕ} (h : j.jobId + 1 < 2 ^ 32) :
    (j.shift s).jobId = shiftId s j.jobId := by
  rw [CertJob.shift, shiftId]
  split_ifs
  · exact Nat.mod_eq_of_lt h
  · rfl

@[simp] theorem ops_shift (s : ℕ) (j : CertJob) : (j.shift s).ops = j.ops := by
  rw [CertJob.shift]
  split_ifs <;> rfl

theorem jobsOps_shift (s : ℕ) (jobs : List CertJob) :
    jobsOps (jobs.map (CertJob.shift s)) = jobsOps jobs := by
  rw [jobsOps, List.flatMap_map]
  exact List.flatMap_congr fun j _ => ops_shift s j

theorem jobs_shift (s : ℕ) (it : CertItem) :
    (it.shift s).jobs = it.jobs.map (CertJob.shift s) := by
  cases it <;> rfl

theorem regionJobs_shift (s : ℕ) (r : CertRegion) :
    (r.shift s).jobs = r.jobs.map (CertJob.shift s) := by
  rw [CertRegion.jobs, CertRegion.jobs, CertRegion.shift, List.flatMap_map, List.map_flatMap]
  exact List.flatMap_congr fun it _ => jobs_shift s it

theorem itemOps_shift (s : ℕ) (it : CertItem) : (it.shift s).ops = it.ops := by
  rw [CertItem.ops, CertItem.ops, jobs_shift, jobsOps_shift]

theorem ids_shift {s : ℕ} (h : ∀ j ∈ jobs, j.jobId + 1 < 2 ^ 32) :
    (jobs.map (CertJob.shift s)).map CertJob.jobId = (jobs.map CertJob.jobId).map (shiftId s) := by
  rw [List.map_map, List.map_map]
  exact List.map_congr_left fun j hj => jobId_shift (h j hj)

theorem sorted_shift {s : ℕ} (h : ∀ j ∈ jobs, j.jobId + 1 < 2 ^ 32)
    (hsorted : (jobs.map CertJob.jobId).Pairwise (· < ·)) :
    ((jobs.map (CertJob.shift s)).map CertJob.jobId).Pairwise (· < ·) := by
  rw [ids_shift h, List.pairwise_map]
  exact hsorted.imp fun hlt => shiftId_strictMono s hlt

/-- Making room for an id keeps the operations, the ids apart, and full-page operations alone. -/
theorem shift_keeps (s : ℕ) (hinv : PagesInv d) (hisolated : Isolated d)
    (hroom : ∀ j ∈ d.jobs, j.jobId + 1 < 2 ^ 32) :
    PagesInv { d with regions := d.regions.map (CertRegion.shift s) } ∧
      Isolated { d with regions := d.regions.map (CertRegion.shift s) } ∧
      CertDevice.ops { d with regions := d.regions.map (CertRegion.shift s) } = d.ops ∧
      CertDevice.ids { d with regions := d.regions.map (CertRegion.shift s) } =
        d.ids.map (shiftId s) := by
  have hids : CertDevice.ids { d with regions := d.regions.map (CertRegion.shift s) } =
      d.ids.map (shiftId s) := by
    have hjobs : (d.regions.map (CertRegion.shift s)).flatMap CertRegion.jobs =
        d.jobs.map (CertJob.shift s) := by
      rw [CertDevice.jobs, List.flatMap_map, List.map_flatMap]
      exact List.flatMap_congr fun r _ => regionJobs_shift s r
    rw [CertDevice.ids, CertDevice.jobs, hjobs, ids_shift hroom]
    rfl
  have hall : ∀ r ∈ d.regions.map (CertRegion.shift s), ∀ it ∈ r.body,
      ∃ r₀ ∈ d.regions, ∃ it₀ ∈ r₀.body, it = it₀.shift s := by
    intro r hr it hit
    obtain ⟨r₀, hr₀, rfl⟩ := List.mem_map.1 hr
    obtain ⟨it₀, hit₀, rfl⟩ := List.mem_map.1 hit
    exact ⟨r₀, hr₀, it₀, hit₀, rfl⟩
  refine ⟨⟨?_, ?_, ?_⟩, ?_, ?_, hids⟩
  · rw [hids]
    exact hinv.nodup.map (shiftId_strictMono s).injective
  · intro r hr it hit
    obtain ⟨r₀, hr₀, it₀, hit₀, rfl⟩ := hall r hr it hit
    rw [jobs_shift]
    refine sorted_shift (fun j hj => hroom j ?_) (hinv.sorted r₀ hr₀ it₀ hit₀)
    exact List.mem_flatMap.2 ⟨r₀, hr₀, List.mem_flatMap.2 ⟨it₀, hit₀, hj⟩⟩
  · intro r hr it hit
    obtain ⟨r₀, hr₀, it₀, hit₀, rfl⟩ := hall r hr it hit
    obtain ⟨js, rfl⟩ := hinv.paged r₀ hr₀ it₀ hit₀
    exact ⟨js.map (CertJob.shift s), rfl⟩
  · intro r hr it hit j hj hfull
    obtain ⟨r₀, hr₀, it₀, hit₀, rfl⟩ := hall r hr it hit
    rw [jobs_shift] at hj
    obtain ⟨k, hk, rfl⟩ := List.mem_map.1 hj
    rw [ops_shift] at hfull ⊢
    obtain ⟨hone, rfl⟩ := hisolated r₀ hr₀ it₀ hit₀ k hk hfull
    exact ⟨hone, rfl⟩
  · rw [CertDevice.ops, CertDevice.ops, List.map_map]
    refine List.map_congr_left fun r _ => ?_
    show (r.shift s).body.flatMap CertItem.ops = r.ops
    rw [CertRegion.shift, List.flatMap_map, CertRegion.ops]
    exact List.flatMap_congr fun it _ => itemOps_shift s it

theorem shift_self (j : CertJob) : j.shift j.jobId = j := by
  rw [CertJob.shift, if_neg (lt_irrefl _)]

/-- **One split** keeps the operations, the ids apart, and full-page operations alone. -/
theorem SplitStep.keeps (h : SplitStep d d') (hinv : PagesInv d) (hisolated : Isolated d)
    (hroom : d.maxJobId + 2 < 2 ^ 32) : PagesInv d' ∧ Isolated d' ∧ d'.ops = d.ops := by
  obtain ⟨before, after, isSection, pre, post, left, right, j, i, h, hsplit⟩ := h
  obtain ⟨hi, hlt⟩ := splitPoint_within hsplit
  have hids : ∀ k ∈ d.jobs, k.jobId + 1 < 2 ^ 32 := fun k hk => by
    have := le_maxJobId (d := d) (List.mem_map_of_mem hk)
    omega
  have hj : j ∈ d.jobs := by
    rw [CertDevice.jobs, h]
    simp [CertRegion.jobs, CertItem.jobs]
  obtain ⟨hinv₁, hisolated₁, hops₁, hids₁⟩ := shift_keeps j.jobId hinv hisolated hids
  -- the split replaces the page of the device with room for the new id
  have h₁ : d.regions.map (CertRegion.shift j.jobId) =
      before.map (CertRegion.shift j.jobId) ++
        ⟨isSection, pre.map (CertItem.shift j.jobId) ++
          .page (left.map (CertJob.shift j.jobId) ++ j :: right.map (CertJob.shift j.jobId)) ::
          post.map (CertItem.shift j.jobId)⟩ :: after.map (CertRegion.shift j.jobId) := by
    rw [h]
    simp [CertRegion.shift, CertItem.shift, shift_self]
  generalize left.map (CertJob.shift j.jobId) = left at h₁ ⊢
  generalize right.map (CertJob.shift j.jobId) = right at h₁ ⊢
  generalize before.map (CertRegion.shift j.jobId) = before at h₁ ⊢
  generalize after.map (CertRegion.shift j.jobId) = after at h₁ ⊢
  generalize pre.map (CertItem.shift j.jobId) = pre at h₁ ⊢
  generalize post.map (CertItem.shift j.jobId) = post at h₁ ⊢
  rw [Nat.mod_eq_of_lt (hids j hj)]
  have hregion : (⟨isSection, pre ++ .page (left ++ j :: right) :: post⟩ : CertRegion) ∈
      d.regions.map (CertRegion.shift j.jobId) := h₁ ▸ List.mem_append_right before List.mem_cons_self
  have hpage : CertItem.page (left ++ j :: right) ∈
      pre ++ CertItem.page (left ++ j :: right) :: post :=
    List.mem_append_right pre List.mem_cons_self
  have hsorted : ((left ++ j :: right).map CertJob.jobId).Pairwise (· < ·) :=
    hinv₁.sorted _ hregion _ hpage
  have hfresh : ∀ x ∈ CertDevice.ids { d with regions := d.regions.map (CertRegion.shift j.jobId) },
      x ≠ j.jobId + 1 := by
    rw [hids₁]
    rintro x hx rfl
    obtain ⟨y, _, hy⟩ := List.mem_map.1 hx
    exact shiftId_ne _ _ hy
  obtain ⟨l, r, hlist⟩ := exists_ids before after isSection pre post
  have hold : CertDevice.ids { d with regions := d.regions.map (CertRegion.shift j.jobId) } =
      l ++ ((left ++ j :: right).map CertJob.jobId ++ r) := by
    have hone := hlist [.page (left ++ j :: right)]
    rw [List.append_assoc, List.singleton_append] at hone
    rw [CertDevice.ids, CertDevice.jobs, h₁, hone]
    simp [CertItem.jobs]
  have hpages : ∀ it ∈ [CertItem.page (left ++ [⟨j.jobId, j.ops.take i⟩]),
      .page (⟨j.jobId + 1, j.ops.drop i⟩ :: right)],
      (it.jobs.map CertJob.jobId).Pairwise (· < ·) := by
    rw [List.map_append, List.map_cons, List.pairwise_append, List.pairwise_cons] at hsorted
    obtain ⟨hleft, ⟨hjright, hright⟩, hcross⟩ := hsorted
    rw [List.forall_mem_cons, List.forall_mem_singleton]
    constructor
    · show ((left ++ [_]).map CertJob.jobId).Pairwise (· < ·)
      rw [List.map_append, List.pairwise_append]
      refine ⟨hleft, List.pairwise_singleton _ _, fun x hx y hy => ?_⟩
      rw [List.mem_singleton.1 hy]
      exact hcross x hx _ List.mem_cons_self
    · show ((_ :: right).map CertJob.jobId).Pairwise (· < ·)
      refine List.pairwise_cons.2 ⟨fun x hx => ?_, hright⟩
      have hne := hfresh x (by
        rw [hold, List.map_append, List.map_cons]
        simp only [List.mem_append, List.mem_cons]
        exact .inr (.inl (.inr (.inr hx))))
      have := hjright x hx
      simp only
      omega
  have hnotfull : ∀ k ∈ left ++ j :: right, ∀ o ∈ k.ops, o.isFullPage = false := by
    -- the job that is split has more operations than one
    intro k hk o ho
    rw [← Bool.not_eq_true]
    intro hfull
    obtain ⟨⟨p, hp⟩, heq⟩ := hisolated₁ _ hregion _ hpage k hk ⟨o, ho, hfull⟩
    have hmem : j ∈ [k] := CertItem.page.inj heq ▸ List.mem_append_right left List.mem_cons_self
    rw [List.mem_singleton.1 hmem, hp, List.length_singleton] at hlt
    omega
  have hsplitops : ∀ it ∈ [CertItem.page (left ++ [⟨j.jobId, j.ops.take i⟩]),
      .page (⟨j.jobId + 1, j.ops.drop i⟩ :: right)], ∀ k ∈ it.jobs, ∀ o ∈ k.ops,
      o.isFullPage = false := by
    rw [List.forall_mem_cons, List.forall_mem_singleton]
    have hjops := hnotfull j (List.mem_append_right left List.mem_cons_self)
    constructor
    · intro k hk o ho
      rcases List.mem_append.1 hk with hk | hk
      · exact hnotfull k (List.mem_append_left _ hk) o ho
      · rw [List.mem_singleton.1 hk] at ho
        exact hjops o (List.mem_of_mem_take ho)
    · intro k hk o ho
      rcases List.mem_cons.1 hk with rfl | hk
      · exact hjops o (List.mem_of_mem_drop ho)
      · exact hnotfull k (List.mem_append_right left (List.mem_cons_of_mem j hk)) o ho
  have happend : ∀ a b : CertItem, pre ++ a :: b :: post = pre ++ [a, b] ++ post := by simp
  rw [happend]
  refine ⟨⟨?_, ?_, ?_⟩, ?_, ?_⟩
  · rw [CertDevice.ids, CertDevice.jobs, hlist]
    have hnodup := hinv₁.nodup
    have hnew := fun hx => hfresh (j.jobId + 1) hx rfl
    rw [hold] at hnodup hnew
    have hperm : (l ++ (([CertItem.page (left ++ [⟨j.jobId, j.ops.take i⟩]),
        .page (⟨j.jobId + 1, j.ops.drop i⟩ :: right)].flatMap CertItem.jobs).map CertJob.jobId ++
          r)).Perm ((j.jobId + 1) :: (l ++ ((left ++ j :: right).map CertJob.jobId ++ r))) := by
      simp [List.perm_iff_count, List.count_append, List.count_cons, CertItem.jobs]
      omega
    exact hperm.nodup_iff.2 (List.nodup_cons.2 ⟨hnew, hnodup⟩)
  · exact mem_replaced (P := fun it => (it.jobs.map CertJob.jobId).Pairwise (· < ·)) _
      (h₁ ▸ hinv₁.sorted) hpages
  · refine mem_replaced (P := fun it => ∃ jobs, it = .page jobs) _ (h₁ ▸ hinv₁.paged) ?_
    rw [List.forall_mem_cons, List.forall_mem_singleton]
    exact ⟨⟨_, rfl⟩, ⟨_, rfl⟩⟩
  · rw [Isolated, h₁] at hisolated₁
    refine mem_replaced (P := fun it => ∀ k ∈ it.jobs, (∃ o ∈ k.ops, o.isFullPage = true) →
      (∃ o, k.ops = [o]) ∧ it = .page [k]) _ hisolated₁ fun it hit k hk hfull => ?_
    obtain ⟨o, ho, hfull⟩ := hfull
    rw [hsplitops it hit k hk o ho] at hfull
    cases hfull
  · have htake : ∀ ops, j.ops.take i ++ (j.ops.drop i ++ ops) = j.ops ++ ops := fun ops => by
      rw [← List.append_assoc, List.take_append_drop]
    rw [← hops₁, CertDevice.ops, CertDevice.ops, h₁]
    simp [CertRegion.ops, CertItem.ops, CertItem.jobs, htake]

end Split

/-! ## The pass -/

section Pass

variable {d d' d₁ d₂ d₃ : CertDevice}

/-- A step of a pattern, from a device whose ids leave room for two more. -/
def WithRoom (r : CertDevice → CertDevice → Prop) (d d' : CertDevice) : Prop :=
  d.maxJobId + 2 < 2 ^ 32 ∧ r d d'

theorem sublist_ids {r : CertRegion} {it : CertItem} (hr : r ∈ d.regions) (hit : it ∈ r.body) :
    (it.jobs.map CertJob.jobId).Sublist d.ids := by
  refine List.Sublist.map _ ?_
  have hbody : it.jobs.Sublist r.jobs := by
    obtain ⟨pre, post, hbody⟩ := List.append_of_mem hit
    rw [CertRegion.jobs, hbody, List.flatMap_append, List.flatMap_cons]
    exact (List.sublist_append_left _ _).trans (List.sublist_append_right _ _)
  refine hbody.trans ?_
  obtain ⟨before, after, hregions⟩ := List.append_of_mem hr
  rw [CertDevice.jobs, hregions, List.flatMap_append, List.flatMap_cons]
  exact (List.sublist_append_left _ _).trans (List.sublist_append_right _ _)

theorem standalone_sublist (r : CertRegion) : r.standalone.Sublist r.jobs := by
  rw [CertRegion.standalone, CertRegion.jobs]
  induction r.body with
  | nil => exact .slnil
  | cons it body ih =>
    cases it with
    | page jobs => exact ih.trans (List.sublist_append_right _ _)
    | job j => exact ih.cons_cons j

theorem emit_of_increasing (hids : d.ids.Pairwise (· < ·))
    (hlast : ∀ r ∈ d.regions, r.StandaloneLast) : d.emit = d.ops := by
  refine List.map_congr_left fun r hr => emit_eq_ops ?_ ?_ (hlast r hr)
  · exact fun it hit => hids.sublist (sublist_ids hr hit)
  · refine hids.sublist (((standalone_sublist r).trans ?_).map _)
    obtain ⟨before, after, hregions⟩ := List.append_of_mem hr
    rw [CertDevice.jobs, hregions, List.flatMap_append, List.flatMap_cons]
    exact (List.sublist_append_left _ _).trans (List.sublist_append_right _ _)

theorem emit_of_paged (hinv : PagesInv d) : d.emit = d.ops := by
  refine List.map_congr_left fun r hr => ?_
  have hnone : ∀ j, .job j ∉ r.body := fun j hj => by
    obtain ⟨jobs, heq⟩ := hinv.paged r hr _ hj
    cases heq
  refine emit_eq_ops (hinv.sorted r hr) ?_ ?_
  · have hnil : r.standalone = [] := by
      rw [CertRegion.standalone, List.filterMap_eq_nil_iff]
      intro it hit
      obtain ⟨jobs, rfl⟩ := hinv.paged r hr it hit
      rfl
    rw [hnil]
    exact .nil
  · intro pre j post hbody
    exact absurd (hbody ▸ List.mem_append_right pre List.mem_cons_self) (hnone j)

/-- Wrapping gives every standalone job a page, and changes nothing else. -/
theorem wrap_keeps (h : RewritesTo WrapStep d d₁) (hids : d.ids.Pairwise (· < ·)) :
    PagesInv d₁ ∧ d₁.ops = d.ops := by
  have hjobs : d₁.regions.map CertRegion.jobs = d.regions.map CertRegion.jobs :=
    keeps_of_step (P := fun x => x.regions.map CertRegion.jobs = d.regions.map CertRegion.jobs)
      (fun _ _ hstep hx => hstep.jobs.trans hx) h.1 rfl
  have hids₁ : d₁.ids.Pairwise (· < ·) := by
    rwa [ids_eq_flatten, hjobs, ← ids_eq_flatten]
  refine ⟨⟨hids₁.imp fun hlt => Nat.ne_of_lt hlt, fun r hr it hit =>
    hids₁.sublist (sublist_ids hr hit), paged_of_normal h.2⟩, ?_⟩
  rw [ops_eq_map, ops_eq_map, hjobs]

theorem WrapStep.allLastOnPage (h : WrapStep d d') (hlast : d.AllLastOnPage) :
    d'.AllLastOnPage := by
  obtain ⟨before, after, isSection, pre, post, j, h⟩ := h
  rw [CertDevice.AllLastOnPage, h] at hlast
  have happend : pre ++ CertItem.page [j] :: post = pre ++ [.page [j]] ++ post := by simp
  rw [CertDevice.AllLastOnPage]
  rw [happend]
  refine mem_replaced (P := fun it => LastOnPage it.jobs) _ hlast fun it hit => ?_
  rw [List.mem_singleton.1 hit]
  exact lastOnPage_singleton j

theorem normal_wrap (h : ∀ r ∈ d.regions, r.standalone = []) : Normal WrapStep d := by
  rintro d' ⟨before, after, isSection, pre, post, j, hregions⟩
  have hnil := h _ (hregions ▸ List.mem_append_right before List.mem_cons_self)
  simp [CertRegion.standalone] at hnil

theorem normal_isolate (h : ∀ r ∈ d.regions, ∀ it ∈ r.body, it.jobs.length = 1 ∧
    ∀ j ∈ it.jobs, isolate d.maxJobId [] j [] = none) : Normal IsolateStep d := by
  rintro d' ⟨before, after, isSection, pre, post, left, right, j, pages, hregions, hisolate⟩
  obtain ⟨hone, hnone⟩ := h _ (hregions ▸ List.mem_append_right before List.mem_cons_self) _
    (List.mem_append_right pre List.mem_cons_self)
  have hlen : (left ++ j :: right).length = 1 := hone
  rw [List.length_append, List.length_cons] at hlen
  obtain rfl : left = [] := List.length_eq_zero_iff.1 (by omega)
  obtain rfl : right = [] := List.length_eq_zero_iff.1 (by simpa using hlen)
  cases (hnone j List.mem_cons_self).symm.trans hisolate

theorem normal_split (h : ∀ r ∈ d.regions, ∀ it ∈ r.body, splitPoint d it.jobs = none) :
    Normal SplitStep d := by
  rintro d' ⟨before, after, isSection, pre, post, left, right, j, i, hregions, hsplit⟩
  have hnone := h _ (hregions ▸ List.mem_append_right before List.mem_cons_self) _
    (List.mem_append_right pre List.mem_cons_self)
  cases hnone.symm.trans hsplit

def onePage (jobs : List CertJob) : CertDevice where
  chains _ := none
  globals _ := none
  regions := [⟨false, [.page jobs]⟩]

def isolatedPages (pages : List (List CertJob)) : CertDevice where
  chains _ := none
  globals _ := none
  regions := [⟨false, pages.map .page⟩]

theorem isolateStep_onePage (left : List CertJob) (j : CertJob) {pages : List (List CertJob)}
    (h : isolate (onePage (left ++ [j])).maxJobId left j [] = some pages) :
    IsolateStep (onePage (left ++ [j])) (isolatedPages pages) := by
  have hstep := IsolateStep.mk (onePage (left ++ [j])) [] [] false [] [] left [] j pages rfl h
  simpa [onePage, isolatedPages] using hstep

end Pass

end MlirAie.Cert
