import MlirAie.Lib.Trace
import MlirAie.Queue.Guard

/-!
# The paths of a sequence and the hardware under them

A path through a region leaves a trace of operations; a queue-space poll stands before every
recorded push. The queues of all channels drain on their own between, before and after the
operations of a trace.

* `Traces`: the paths, of any trip counts and branch outcomes;
* `guardTrace`: a path with the polls in it;
* `Region.unknown`: its operations in any order, any number of times.
-/

namespace MlirAie.Queue

open MlirAie.Lib

def ForBounds.MayRun (l : ForBounds) : Prop :=
  ∀ lb ub, l.lb = some lb → l.ub = some ub →
    if l.unsignedCmp then lb.toNat < ub.toNat else lb.toInt < ub.toInt

/-- The paths through a region. -/
def Traces : Region → List SeqOp → Prop
  | .done, tr => tr = []
  | .op o rest, tr => ∃ tr', Traces rest tr' ∧ tr = o :: tr'
  | .scfFor bounds body rest, tr => ∃ iterations tr', (∀ t ∈ iterations, Traces body t) ∧
      (iterations ≠ [] → bounds.MayRun) ∧ Traces rest tr' ∧ tr = iterations.flatten ++ tr'
  | .scfIf thenRegion elseRegion rest, tr => ∃ t tr',
      (Traces thenRegion t ∨ Traces elseRegion t) ∧ Traces rest tr' ∧ tr = t ++ tr'
  | .unknown nested rest, tr => ∃ t tr', (∀ o ∈ t, o ∈ nested.walk) ∧ Traces rest tr' ∧
      tr = t ++ tr'

inductive QueueEvent
  | op (o : SeqOp)
  | spaceWait (key : ChannelKey)
deriving DecidableEq, Repr

/-- An operation, past a queue-space poll if it is a recorded push. -/
def guardOp (marks : List ℕ) : SeqOp → List QueueEvent
  | .effect id (.Push key b) =>
    if id ∈ marks then [.spaceWait key, .op (.effect id (.Push key b))]
    else [.op (.effect id (.Push key b))]
  | o => [.op o]

/-- A path with a queue-space poll before every recorded push. -/
def guardTrace (marks : List ℕ) (tr : List SeqOp) : List QueueEvent := tr.flatMap (guardOp marks)

abbrev Channels := ChannelKey → Channel Bool

section

variable (tm : AIETargetModel) (countsRunning : Bool)

/-- The pushes that occupy a channel's queue. -/
def outstanding (hw : Channels) (key : ChannelKey) : ℕ :=
  ((hw key).occupying countsRunning).length

/-- A poll with constant operands returns on a value of the status register it reads. -/
def PollReturns (hw : Channels) (p : NpuMaskPollOp) : Prop :=
  ∀ address value mask, p = ⟨some address, some value, some mask⟩ →
    ∃ reg, reg &&& mask = value ∧ ∀ key, tm.getDmaStatusAddress key = some address →
      getDmaStatus tm (outstanding countsRunning hw key) reg

/-- What an event does. A push onto a full queue is dropped. What is not a push on a tracked
channel may consume tokens, but pushes nothing. -/
def QueueStep : QueueEvent → Channels → Channels → Prop
  | .op (.effect _ (.Push key b)), hw, hw' =>
    hw' = if tm.getDmaTaskQueueDepth key ≠ 0 ∧
        tm.getDmaTaskQueueDepth key ≤ outstanding countsRunning hw key then hw
      else Function.update hw key ((hw key).push b)
  | .op (.effect _ (.Await key)), hw, hw' => 0 < (hw key).tokens ∧
      hw' = Function.update hw key { hw key with tokens := (hw key).tokens - 1 }
  | .op (.effect _ .Ignore), hw, hw' =>
    ∀ key, ∃ t ≤ (hw key).tokens, hw' key = { hw key with tokens := t }
  | .op (.poll p), hw, hw' => PollReturns tm countsRunning hw p ∧ hw' = hw
  | .spaceWait key, hw, hw' =>
    outstanding countsRunning hw key < tm.getDmaTaskQueueDepth key ∧ hw' = hw

/-- The queues under a sequence. An event is safe unless it is a push on `key` that finds the queue
full. -/
def queueMachine (key : ChannelKey) : Machine Channels QueueEvent where
  internal hw hw' := ∃ k ch, (hw k).Drain id ch ∧ hw' = Function.update hw k ch
  step := QueueStep tm countsRunning
  ok e hw := ∀ id b, e = .op (.effect id (.Push key b)) →
    outstanding countsRunning hw key < tm.getDmaTaskQueueDepth key

end

/-! ## Traces -/

theorem guardTrace_append (marks : List ℕ) (t t' : List SeqOp) :
    guardTrace marks (t ++ t') = guardTrace marks t ++ guardTrace marks t' := List.flatMap_append

theorem guardTrace_flatten (marks : List ℕ) (ts : List (List SeqOp)) :
    guardTrace marks ts.flatten = (ts.map (guardTrace marks)).flatten := by
  induction ts with
  | nil => rfl
  | cons t ts ih => rw [List.flatten_cons, guardTrace_append, ih, List.map_cons, List.flatten_cons]

theorem guardTrace_cons (marks : List ℕ) (o : SeqOp) (tr : List SeqOp) :
    guardTrace marks (o :: tr) = guardOp marks o ++ guardTrace marks tr := List.flatMap_cons

theorem mem_walk_of_traces {region : Region} {tr : List SeqOp} (h : Traces region tr) :
    ∀ o ∈ tr, o ∈ region.walk := by
  induction region generalizing tr with
  | done =>
    obtain rfl : tr = [] := h
    exact fun o ho => nomatch ho
  | op o rest ih =>
    obtain ⟨tr', htr', rfl⟩ := h
    rw [List.forall_mem_cons]
    exact ⟨List.mem_cons_self, fun x hx => List.mem_cons_of_mem _ (ih htr' x hx)⟩
  | scfFor bounds body rest ihb ihr =>
    obtain ⟨ts, tr', hts, -, htr', rfl⟩ := h
    intro o ho
    rcases List.mem_append.1 ho with ho | ho
    · obtain ⟨t, ht, ho⟩ := List.mem_flatten.1 ho
      exact List.mem_append_left _ (ihb (hts t ht) o ho)
    · exact List.mem_append_right _ (ihr htr' o ho)
  | scfIf thenRegion elseRegion rest iht ihe ihr =>
    obtain ⟨t, tr', ht, htr', rfl⟩ := h
    intro o ho
    simp only [Region.walk, List.mem_append]
    rcases List.mem_append.1 ho with ho | ho
    · rcases ht with ht | ht
      · exact .inl (.inl (iht ht o ho))
      · exact .inl (.inr (ihe ht o ho))
    · exact .inr (ihr htr' o ho)
  | unknown nested rest _ ihr =>
    obtain ⟨t, tr', ht, htr', rfl⟩ := h
    intro o ho
    rcases List.mem_append.1 ho with ho | ho
    · exact List.mem_append_left _ (ht o ho)
    · exact List.mem_append_right _ (ihr htr' o ho)

theorem ForBounds.not_mayRun {l : ForBounds} (h : l.neverRuns = true) : ¬ l.MayRun := by
  intro hrun
  unfold neverRuns at h
  split at h
  · rename_i lb ub hlb hub
    have hlt := hrun lb ub hlb hub
    simp only [Bool.and_eq_true, Bool.or_eq_true, Bool.not_eq_eq_eq_not, Bool.not_true,
      decide_eq_true_eq] at h
    obtain ⟨hle, hsigned | ⟨h0, h1⟩⟩ := h
    · rw [hsigned] at hlt
      exact absurd hlt (not_lt.2 hle)
    · have hlb' := BitVec.toInt_eq_toNat_of_msb (x := lb) (by rw [BitVec.msb_eq_toInt]; simpa using h0)
      have hub' := BitVec.toInt_eq_toNat_of_msb (x := ub) (by rw [BitVec.msb_eq_toInt]; simpa using h1)
      split_ifs at hlt <;> omega
  · cases h

end MlirAie.Queue
