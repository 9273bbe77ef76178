import MlirAie.Lib.Coalesce

/-!
# CERT control code

The operations of a job and the chains of uC DMA descriptors they write; pages of jobs, and the
three patterns that bring a device's control code into pages: standalone jobs are wrapped,
`cert.load_pdi` and `cert.preempt` get a page of their own, and pages that cost too much are split.

* `CertUcDmaBd`, `CertOp`: descriptors and operations;
* `CertCode`: a job, and the chains by symbol;
* `estimateCost`: the bytes of a page, and where to split it.
-/

namespace MlirAie.Cert

open Lib

/-! ## Operations -/

def certPageSize : ℕ := 8000

/-- `cert.uc_dma_bd`: `length` words of the data at `remoteAddress` go to `localAddress`. -/
structure CertUcDmaBd where
  remoteAddress : String
  localAddress : ℕ
  length : ℕ
  nextBd : Bool
deriving DecidableEq, Repr

inductive CertOp
  | write32 (address value : ℕ)
  | maskWrite32 (address mask value : ℕ)
  | maskPoll32 (address mask value : ℕ)
  | applyOffset57 (symbol : String) (numEntries offset : ℕ)
  | waitTCTS (tileId channelId targetTcts : ℕ)
  | ucDmaWriteDesSync (symbol : String)
  | localBarrier (localBarrierId numParticipants : ℕ)
  | remoteBarrier (remoteBarrierId partyMask : ℕ)
  | preempt (id : ℕ) (saveSection restoreSection : String)
  | loadPdi (pdiId : ℕ) (symbol : String)
  | nop
deriving DecidableEq, Repr

def CertOp.sync : CertOp → Option String
  | .ucDmaWriteDesSync symbol => some symbol
  | _ => none

/-- The descriptors of a `cert.uc_dma_chain`, by its symbol. -/
abbrev Chains := String → Option (List CertUcDmaBd)

/-- A job, and the chains of its device. -/
structure CertCode where
  chains : Chains
  job : List CertOp

structure UcDmaWrite where
  remoteAddress : String
  localAddress : ℕ
  length : ℕ
deriving DecidableEq, Repr

def CertUcDmaBd.write (bd : CertUcDmaBd) : UcDmaWrite :=
  ⟨bd.remoteAddress, bd.localAddress, bd.length⟩

/-- What an operation does: the writes of its chain, if it writes one, and `cert.nop` nothing. -/
def CertOp.effects (chains : Chains) (o : CertOp) : List (UcDmaWrite ⊕ CertOp) :=
  match o.sync.bind chains with
  | some bds => bds.map fun bd => .inl bd.write
  | none => if o = .nop then [] else [.inr o]

def CertCode.effects (c : CertCode) : List (UcDmaWrite ⊕ CertOp) :=
  c.job.flatMap (CertOp.effects c.chains)

/-! ## Pages -/

/-- `cert.job`. -/
structure CertJob where
  jobId : ℕ
  ops : List CertOp
deriving DecidableEq, Repr

/-- A page of jobs, or a standalone job. -/
inductive CertItem
  | page (jobs : List CertJob)
  | job (j : CertJob)
deriving DecidableEq, Repr

def CertItem.jobs : CertItem → List CertJob
  | .page jobs => jobs
  | .job j => [j]

/-- The body of the device, of a section or of a group. -/
structure CertRegion where
  isSection : Bool
  body : List CertItem
deriving DecidableEq, Repr

/-- A device: its chains, the elements of its globals with dense initial values, and the control
code of its regions. -/
structure CertDevice where
  chains : Chains
  globals : String → Option ℕ
  regions : List CertRegion

def jobsOps (jobs : List CertJob) : List CertOp := jobs.flatMap CertJob.ops

def sortJobs (jobs : List CertJob) : List CertJob :=
  jobs.insertionSort fun a b => a.jobId ≤ b.jobId

/-! ## Emission -/

namespace CertRegion

def pages (r : CertRegion) : List (List CertJob) :=
  r.body.filterMap fun
    | .page jobs => some jobs
    | .job _ => none

def standalone (r : CertRegion) : List CertJob :=
  r.body.filterMap fun
    | .page _ => none
    | .job j => some j

def jobs (r : CertRegion) : List CertJob := r.body.flatMap CertItem.jobs

/-- Pages in order, the jobs of each by id, and then the standalone jobs, by id unless in a
section. -/
def emit (r : CertRegion) : List CertOp :=
  r.pages.flatMap (fun jobs => jobsOps (sortJobs jobs)) ++
    jobsOps (if r.isSection then r.standalone else sortJobs r.standalone)

end CertRegion

namespace CertDevice

def emit (d : CertDevice) : List (List CertOp) := d.regions.map CertRegion.emit

def jobs (d : CertDevice) : List CertJob := d.regions.flatMap CertRegion.jobs

def ids (d : CertDevice) : List ℕ := d.jobs.map CertJob.jobId

def maxJobId (d : CertDevice) : ℕ := d.ids.foldl max 0

end CertDevice

/-! ## Wrapping -/

inductive WrapStep : CertDevice → CertDevice → Prop
  | mk (d : CertDevice) (before after : List CertRegion) (isSection : Bool)
      (pre post : List CertItem) (j : CertJob)
      (h : d.regions = before ++ ⟨isSection, pre ++ .job j :: post⟩ :: after) :
      WrapStep d { d with regions := before ++ ⟨isSection, pre ++ .page [j] :: post⟩ :: after }

/-! ## Isolating -/

def CertOp.isFullPage : CertOp → Bool
  | .loadPdi _ _ => true
  | .preempt _ _ _ => true
  | _ => false

/-- The pages that replace that of a job with a full-page operation, where the job is not alone
with it. The other jobs of the page stay on it. -/
def isolate (maxJobId : ℕ) (before : List CertJob) (job : CertJob) (after : List CertJob) :
    Option (List (List CertJob)) :=
  match job.ops.dropWhile fun o => !o.isFullPage with
  | [] => none
  | fullPageOp :: afterOps =>
    let others := before ++ after
    if job.ops.length = 1 then
      if others = [] then none else some [others, [job]]
    else
      let beforeOps := job.ops.takeWhile fun o => !o.isFullPage
      let beforePage := if beforeOps = [] then [] else [[⟨job.jobId, beforeOps⟩]]
      let parentPage := if others = [] then [] else [others]
      let fullPage := [[⟨(maxJobId + 1) % 2 ^ 32, [fullPageOp]⟩]]
      let afterPage := if afterOps = [] then [] else [[⟨(maxJobId + 2) % 2 ^ 32, afterOps⟩]]
      some (beforePage ++ parentPage ++ fullPage ++ afterPage)

/-- A job with a full-page operation is taken apart, or moved to a page of its own. -/
inductive IsolateStep : CertDevice → CertDevice → Prop
  | mk (d : CertDevice) (before after : List CertRegion) (isSection : Bool)
      (pre post : List CertItem) (left right : List CertJob) (j : CertJob)
      (pages : List (List CertJob))
      (h : d.regions =
        before ++ ⟨isSection, pre ++ .page (left ++ j :: right) :: post⟩ :: after)
      (hisolate : isolate d.maxJobId left j right = some pages) :
      IsolateStep d
        { d with regions := before ++ ⟨isSection, pre ++ pages.map .page ++ post⟩ :: after }

/-! ## Splitting -/

/-- The bytes of a page's text and data, and where to split it: a job of the page, and one of its
operations. -/
structure PageCost where
  text : ℕ := 32
  data : ℕ := 0
  split : Option (ℕ × ℕ) := none
deriving DecidableEq, Repr

def PageCost.total (c : PageCost) : ℕ := (c.text + c.data) % 2 ^ 32

def updateCostForOp (d : CertDevice) (o : CertOp) (c : PageCost) : PageCost :=
  let addText (n : ℕ) : PageCost := { c with text := (c.text + n) % 2 ^ 32 }
  match o with
  | .localBarrier _ _ => addText 8
  | .remoteBarrier _ _ => addText 8
  | .waitTCTS _ _ _ => addText 8
  | .maskWrite32 _ _ _ => addText 16
  | .maskPoll32 _ _ _ => addText 16
  | .write32 _ _ => addText 12
  | .applyOffset57 _ _ _ => addText 16
  | .ucDmaWriteDesSync symbol =>
    { addText 16 with
      data := ((d.chains symbol).getD []).foldl (fun data bd =>
        (data + 16 + ((d.globals bd.remoteAddress).getD 0) * 4) % 2 ^ 32) c.data }
  | .preempt _ _ _ => c
  | .loadPdi _ _ => c
  | .nop => c

/-- One operation of the job at `k`: the first one, not the job's first, at which the target is
reached, is where to split. -/
def estimateOp (d : CertDevice) (target k size : ℕ) (c : PageCost) (o : CertOp × ℕ) : PageCost :=
  let c := if c.split = none ∧ o.2 ≠ 0 ∧ c.total ≥ target then { c with split := some (k, o.2) }
    else c
  let c := updateCostForOp d o.1 c
  if c.split = none ∧ c.total ≥ target ∧ o.2 + 1 < size then
    { c with split := some (k, o.2 + 1) }
  else c

def estimateCost (d : CertDevice) (target : ℕ) (jobs : List CertJob) : PageCost :=
  jobs.zipIdx.foldl (fun c job =>
    job.1.ops.zipIdx.foldl (estimateOp d target job.2 job.1.ops.length) c) {}

/-- Makes room for an id after `jobId`. -/
def CertJob.shift (jobId : ℕ) (j : CertJob) : CertJob :=
  if jobId < j.jobId then { j with jobId := (j.jobId + 1) % 2 ^ 32 } else j

def CertItem.shift (jobId : ℕ) : CertItem → CertItem
  | .page jobs => .page (jobs.map (CertJob.shift jobId))
  | .job j => .job (j.shift jobId)

def CertRegion.shift (jobId : ℕ) (r : CertRegion) : CertRegion :=
  { r with body := r.body.map (CertItem.shift jobId) }

/-- Where a page that costs too much is split. -/
def splitPoint (d : CertDevice) (jobs : List CertJob) : Option (ℕ × ℕ) :=
  let cost := estimateCost d (certPageSize / 2) jobs
  if cost.total < certPageSize then none else cost.split

/-- A page is split in two, within one of its jobs. -/
inductive SplitStep : CertDevice → CertDevice → Prop
  | mk (d : CertDevice) (before after : List CertRegion) (isSection : Bool)
      (pre post : List CertItem) (left right : List CertJob) (j : CertJob) (i : ℕ)
      (h : d.regions =
        before ++ ⟨isSection, pre ++ .page (left ++ j :: right) :: post⟩ :: after)
      (hsplit : splitPoint d (left ++ j :: right) = some (left.length, i)) :
      SplitStep d { d with regions := before.map (CertRegion.shift j.jobId) ++
        ⟨isSection, pre.map (CertItem.shift j.jobId) ++
          .page (left.map (CertJob.shift j.jobId) ++ [⟨j.jobId, j.ops.take i⟩]) ::
          .page (⟨(j.jobId + 1) % 2 ^ 32, j.ops.drop i⟩ ::
            right.map (CertJob.shift j.jobId)) ::
          post.map (CertItem.shift j.jobId)⟩ :: after.map (CertRegion.shift j.jobId) }

end MlirAie.Cert
