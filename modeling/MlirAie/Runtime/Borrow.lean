import MlirAie.Runtime.Coherence

/-!
# Write scopes

A tensor borrows its bytes of an allocation for a write. The residency is recorded when the scope
is left; reads and moves inside it act on the one recorded before.

* `Cell`: one byte of an allocation on its own;
* **`Cells.act`**: an allocation is the allocation of its bytes;
* **`mutate_keeps_iff`**: what is stored in a scope is read after it, unless it was stored over a
  byte of the device that a read or a move in the scope pulls again.
-/

namespace MlirAie.Runtime

/-! ## Allocations -/

/-- `Transport`: one that honours ranges, `WholeExtentTransport` and `HostOnlyTransport`. -/
inductive Transport
  | ranged
  | wholeExtent
  | hostOnly
deriving DecidableEq

/-- The bytes that a request for `[offset, offset + nbytes)` moves. -/
def Transport.reaches : Transport → ℕ → ℕ → ℕ → Bool
  | .ranged, offset, nbytes, b => offset ≤ b && b < offset + nbytes
  | .wholeExtent, _, _, _ => true
  | .hostOnly, _, _, _ => false

/-- `Storage`, with the bytes each agent sees. -/
structure Storage (β : Type) where
  transport : Transport
  coherence : CoherenceMap
  host : ℕ → β
  device : ℕ → β

inductive ViewError
  | notImplementedError
  | valueError
  | zeroDivisionError
deriving DecidableEq

/-- A tensor over an allocation, by its `_extent`. A backend whose transfers take no range has no
views. -/
structure NpuTensor (transport : Transport) (nbytes granule : ℕ) where
  start : ℕ
  stop : ℕ
  start_le : start ≤ stop
  stop_le : stop ≤ nbytes
  start_dvd : granule ∣ start
  stop_dvd : granule ∣ stop ∨ stop = nbytes
  whole : transport = .wholeExtent → start = 0 ∧ stop = nbytes
deriving DecidableEq

namespace NpuTensor

variable {transport : Transport} {nbytes granule : ℕ}

/-- The tensor that owns the allocation. -/
def owner (transport : Transport) (nbytes granule : ℕ) : NpuTensor transport nbytes granule where
  start := 0
  stop := nbytes
  start_le := Nat.zero_le _
  stop_le := le_rfl
  start_dvd := dvd_zero _
  stop_dvd := .inr rfl
  whole _ := ⟨rfl, rfl⟩

/-- `subview`, at an offset in bytes. -/
def subview (t : NpuTensor transport nbytes granule) (offset : ℤ) (shape : List ℤ)
    (itemsize : ℕ) : Except ViewError (NpuTensor transport nbytes granule) :=
  if hviews : transport = .wholeExtent then .error .notImplementedError
  else if shape.any (· < 0) then .error .valueError
  else
    let size := (shape.map Int.toNat).prod * itemsize
    if hbounds : offset < 0 ∨ (t.stop - t.start : ℤ) < offset + size then .error .valueError
    else if granule = 0 then .error .zeroDivisionError
    else if haligned : offset % granule ≠ 0 ∨
        (size % granule ≠ 0 ∧ offset + size ≠ t.stop - t.start) then .error .valueError
    else .ok {
      start := t.start + offset.toNat
      stop := t.start + offset.toNat + size
      start_le := Nat.le_add_right _ _
      stop_le := by
        have := t.stop_le
        omega
      start_dvd := by
        push Not at haligned hbounds
        refine (Nat.dvd_add_right t.start_dvd).2 (Int.natCast_dvd_natCast.1 ?_)
        rw [Int.toNat_of_nonneg hbounds.1]
        exact Int.dvd_of_emod_eq_zero haligned.1
      stop_dvd := by
        push Not at haligned hbounds
        have hoffset : granule ∣ offset.toNat := by
          refine Int.natCast_dvd_natCast.1 ?_
          rw [Int.toNat_of_nonneg hbounds.1]
          exact Int.dvd_of_emod_eq_zero haligned.1
        by_cases hsize : size % granule = 0
        · exact .inl (dvd_add (dvd_add t.start_dvd hoffset) (Nat.dvd_of_mod_eq_zero hsize))
        · have hend := haligned.2 hsize
          have hstop : t.start + offset.toNat + size = t.stop := by omega
          exact hstop ▸ t.stop_dvd
      whole := fun h => absurd h hviews }

/-- The bytes of a shape. -/
def viewBytes (shape : List ℤ) (itemsize : ℕ) : ℕ := (shape.map Int.toNat).prod * itemsize

theorem subview_eq_ok {t u : NpuTensor transport nbytes granule} {offset : ℤ} {shape : List ℤ}
    {itemsize : ℕ} : t.subview offset shape itemsize = .ok u ↔
      transport ≠ .wholeExtent ∧ ¬ shape.any (· < 0) = true ∧
        ¬ (offset < 0 ∨ (t.stop - t.start : ℤ) < offset + viewBytes shape itemsize) ∧
        granule ≠ 0 ∧
        ¬ (offset % granule ≠ 0 ∨ (viewBytes shape itemsize % granule ≠ 0 ∧
          offset + viewBytes shape itemsize ≠ t.stop - t.start)) ∧
        u.start = t.start + offset.toNat ∧
        u.stop = t.start + offset.toNat + viewBytes shape itemsize := by
  unfold subview viewBytes
  by_cases h₁ : transport = .wholeExtent
  · simp [h₁]
  by_cases h₂ : shape.any (· < 0) = true
  · simp [h₁, h₂]
  rw [dif_neg h₁, if_neg h₂]
  dsimp only
  split
  · rename_i h₃
    exact ⟨nofun, fun h => absurd h₃ h.2.2.1⟩
  split
  · rename_i h₄
    exact ⟨nofun, fun h => absurd h₄ h.2.2.2.1⟩
  split
  · rename_i h₅
    exact ⟨nofun, fun h => absurd h₅ h.2.2.2.2.1⟩
  · rename_i h₃ h₄ h₅
    cases u
    simp only [Except.ok.injEq, NpuTensor.mk.injEq]
    exact ⟨fun h => ⟨h₁, h₂, h₃, h₄, h₅, h.1.symm, h.2.symm⟩,
      fun h => ⟨h.2.2.2.2.2.1.symm, h.2.2.2.2.2.2.symm⟩⟩

/-- **A view of a view is a view** of the tensor, at the sum of the offsets. -/
theorem subview_subview {t u v : NpuTensor transport nbytes granule} {offset offset' : ℤ}
    {shape shape' : List ℤ} {itemsize itemsize' : ℕ}
    (h : t.subview offset shape itemsize = .ok u) (h' : u.subview offset' shape' itemsize' = .ok v) :
    t.subview (offset + offset') shape' itemsize' = .ok v := by
  obtain ⟨hviews, -, hbounds, hgranule, haligned, hstart, hstop⟩ := subview_eq_ok.1 h
  obtain ⟨-, hshape, hbounds', -, haligned', hstart', hstop'⟩ := subview_eq_ok.1 h'
  push Not at hbounds hbounds' haligned haligned'
  have hle := u.start_le
  have hzero : (offset + offset') % granule = 0 := by
    rw [Int.add_emod, haligned.1, haligned'.1]
    rfl
  refine subview_eq_ok.2 ⟨hviews, hshape, by omega, hgranule, ?_, by omega, by omega⟩
  rintro (hoff | ⟨hsize, hend⟩)
  · exact hoff hzero
  -- the inner view ends where the outer one does, off the granule, and so at the allocation's end
  have hlast := haligned'.2 hsize
  have hodd : ¬ granule ∣ u.stop := fun hdvd => hsize <| by
    have hstart'' : granule ∣ v.start := v.start_dvd
    have hsub : u.stop = v.start + viewBytes shape' itemsize' := by omega
    exact Nat.mod_eq_zero_of_dvd ((Nat.dvd_add_right hstart'').1 (hsub ▸ hdvd))
  have hnbytes := u.stop_dvd.resolve_left hodd
  have htop := t.stop_le
  have hinside : u.stop ≤ t.stop := by omega
  omega

/-- Some of the four lines of an allocation of 256 bytes. -/
def lines (lo hi : ℕ) (h : lo ≤ hi) (h' : hi ≤ 4) : NpuTensor .ranged 256 64 where
  start := 64 * lo
  stop := 64 * hi
  start_le := by omega
  stop_le := by omega
  start_dvd := ⟨lo, rfl⟩
  stop_dvd := .inl ⟨hi, rfl⟩
  whole := nofun

theorem lines_subview :
    (owner .ranged 256 64).subview (64 + 64) [64] 1 = .ok (lines 2 3 (by decide) (by decide)) :=
  @subview_subview _ _ _ _ (lines 1 3 (by decide) (by decide)) _ _ _ [2, 32] _ 2 _
    (subview_eq_ok.2 (by decide)) (subview_eq_ok.2 (by decide))

/-- The byte is one of the tensor's. -/
def Covers (t : NpuTensor transport nbytes granule) (b : ℕ) : Prop := t.start ≤ b ∧ b < t.stop

instance (t : NpuTensor transport nbytes granule) : DecidablePred t.Covers :=
  fun b => inferInstanceAs (Decidable (t.start ≤ b ∧ b < t.stop))

end NpuTensor

/-! ## Operations -/

namespace Storage

variable {β : Type} {transport : Transport} {nbytes granule : ℕ}

def allocate (transport : Transport) (nbytes granule : ℕ) (state : Residency)
    (host device : ℕ → β) : Storage β :=
  ⟨transport, .init nbytes state granule, host, device⟩

/-- `sync_to_device`. -/
def syncToDevice (s : Storage β) (offset nbytes : ℕ) : Storage β :=
  { s with device := fun b => if s.transport.reaches offset nbytes b then s.host b else s.device b }

/-- `sync_from_device`. -/
def syncFromDevice (s : Storage β) (offset nbytes : ℕ) : Storage β :=
  { s with host := fun b => if s.transport.reaches offset nbytes b then s.device b else s.host b }

/-- The ranges are sent, one transfer each. -/
def push (s : Storage β) (ranges : List (ℕ × ℕ)) : Storage β :=
  ranges.foldl (fun s r => s.syncToDevice r.1 (r.2 - r.1)) s

/-- The ranges are fetched, one transfer each. -/
def pull (s : Storage β) (ranges : List (ℕ × ℕ)) : Storage β :=
  ranges.foldl (fun s r => s.syncFromDevice r.1 (r.2 - r.1)) s

/-- The residency of the tensor is recorded: `coherence.set`. -/
def record (s : Storage β) (t : NpuTensor transport nbytes granule) (state : Residency) :
    Except SetError (Storage β) :=
  match s.coherence.set t.start t.stop state with
  | (_, some e) => .error e
  | (coherence, none) => .ok { s with coherence := coherence }

/-- `_reconcile_for_read`. -/
def reconcileForRead (s : Storage β) (t : NpuTensor transport nbytes granule) : Storage β :=
  if s.coherence.uniform = some .host then s
  else if s.coherence.get t.start t.stop = some .host then s
  else s.pull (s.coherence.ranges t.start t.stop .device)

/-- `to`. -/
def moveTo (s : Storage β) (t : NpuTensor transport nbytes granule) (target : Residency) :
    Except SetError (Storage β) :=
  if s.coherence.uniform = some target then .ok s
  else if s.coherence.get t.start t.stop = some target then .ok s
  else match target with
    | .device => (s.push (s.coherence.ranges t.start t.stop .host)).record t .device
    | .host => (s.pull (s.coherence.ranges t.start t.stop .device)).record t .host

/-- `numpy`, and what the other reads see: the bytes of the tensor. -/
def numpy (s : Storage β) (t : NpuTensor transport nbytes granule) : Storage β × List β :=
  let s := s.reconcileForRead t
  (s, (List.range' t.start (t.stop - t.start)).map s.host)

end Storage

section Scope

variable (β : Type) (transport : Transport) (nbytes granule : ℕ)

/-- A read, or a `to`. -/
inductive Move
  | read (t : NpuTensor transport nbytes granule)
  | moveTo (t : NpuTensor transport nbytes granule) (target : Residency)

variable {transport nbytes granule}

/-- What happens inside the scope of a tensor: a store through the borrowed array is to one of the
tensor's bytes. -/
inductive Action (t : NpuTensor transport nbytes granule)
  | move (m : Move transport nbytes granule)
  | store (b : Set.Ico t.start t.stop) (v : β)

end Scope

namespace Storage

variable {β : Type} {transport : Transport} {nbytes granule : ℕ}

def move (s : Storage β) : Move transport nbytes granule →
    Except SetError (Storage β)
  | .read t => .ok (s.numpy t).1
  | .moveTo t target => s.moveTo t target

def moves (s : Storage β) (ms : List (Move transport nbytes granule)) :
    Except SetError (Storage β) := ms.foldlM move s

def act {t : NpuTensor transport nbytes granule} (s : Storage β) : Action β t →
    Except SetError (Storage β)
  | .move m => s.move m
  | .store b v => .ok { s with host := Function.update s.host b v }

def run {t : NpuTensor transport nbytes granule} (s : Storage β) (body : List (Action β t)) :
    Except SetError (Storage β) := body.foldlM act s

/-- `mutate`, its scope left normally: `__enter__`, the body and `__exit__`. -/
def mutate (s : Storage β) (t : NpuTensor transport nbytes granule) (body : List (Action β t)) :
    Except SetError (Storage β) := do
  let s ← (s.reconcileForRead t).run body
  s.record t .host

def recordAll (s : Storage β) (history : List (NpuTensor transport nbytes granule × Residency)) :
    Except SetError (Storage β) :=
  history.foldlM (fun s c => s.record c.1 c.2) s

end Storage

/-- It fetches the device's copy of a byte that the device holds. -/
def Move.Pulls {transport : Transport} {nbytes granule : ℕ} (b : ℕ) :
    Move transport nbytes granule → Prop
  | .read t => t.Covers b
  | .moveTo t target => t.Covers b ∧ target = .host

/-! ## One byte -/

/-- A byte of an allocation: its residency, and what each agent sees. -/
structure Cell (β : Type) where
  residency : Residency
  host : β
  device : β

namespace Cell

variable {β : Type} {transport : Transport} {nbytes granule : ℕ}

/-- The device's copy is fetched where the device holds the byte, if there are two copies. -/
def pull (linked : Bool) (c : Cell β) : Cell β :=
  if linked = true ∧ c.residency = .device then { c with host := c.device } else c

/-- The host's copy is sent where the host holds the byte, if there are two copies. -/
def push (linked : Bool) (c : Cell β) : Cell β :=
  if linked = true ∧ c.residency = .host then { c with device := c.host } else c

def moveTo (linked : Bool) (c : Cell β) : Residency → Cell β
  | .device => { c.push linked with residency := .device }
  | .host => { c.pull linked with residency := .host }

def move (linked : Bool) (b : ℕ) (c : Cell β) : Move transport nbytes granule → Cell β
  | .read t => if t.Covers b then c.pull linked else c
  | .moveTo t target => if t.Covers b then c.moveTo linked target else c

def act {t : NpuTensor transport nbytes granule} (linked : Bool) (b : ℕ) (c : Cell β) :
    Action β t → Cell β
  | .move m => c.move linked b m
  | .store b' v => if (b' : ℕ) = b then { c with host := v } else c

def run {t : NpuTensor transport nbytes granule} (linked : Bool) (b : ℕ) (c : Cell β)
    (body : List (Action β t)) : Cell β := body.foldl (act linked b) c

@[simp] theorem pull_residency (linked : Bool) (c : Cell β) :
    (c.pull linked).residency = c.residency := by
  unfold pull
  split <;> rfl

@[simp] theorem push_residency (linked : Bool) (c : Cell β) :
    (c.push linked).residency = c.residency := by
  unfold push
  split <;> rfl

theorem moveTo_host (linked : Bool) (c : Cell β) :
    c.moveTo linked .host = { c.pull linked with residency := .host } := rfl

theorem moveTo_device (linked : Bool) (c : Cell β) :
    c.moveTo linked .device = { c.push linked with residency := .device } := rfl

theorem move_read (linked : Bool) (b : ℕ) (c : Cell β)
    (t : NpuTensor transport nbytes granule) :
    c.move linked b (.read t) = if t.Covers b then c.pull linked else c := rfl

theorem move_moveTo (linked : Bool) (b : ℕ) (c : Cell β)
    (t : NpuTensor transport nbytes granule) (target : Residency) :
    c.move linked b (.moveTo t target) = if t.Covers b then c.moveTo linked target else c := rfl

theorem pull_of_host (linked : Bool) {c : Cell β} (h : c.residency = .host) :
    c.pull linked = c := if_neg (by simp [h])

theorem push_of_device (linked : Bool) {c : Cell β} (h : c.residency = .device) :
    c.push linked = c := if_neg (by simp [h])

theorem moveTo_residency (linked : Bool) (c : Cell β) : c.moveTo linked c.residency = c := by
  obtain ⟨_ | _, _, _⟩ := c
  · rw [moveTo_host, pull_of_host _ rfl]
  · rw [moveTo_device, push_of_device _ rfl]

/-- The host sees the value, and no move fetches another one. -/
def Fixed (linked : Bool) (v : β) (c : Cell β) : Prop :=
  c.host = v ∧ (linked = true → c.residency = .host ∨ c.device = v)

variable {linked : Bool} {v : β} {c : Cell β}

theorem Fixed.pull (h : c.Fixed linked v) : (c.pull linked).Fixed linked v := by
  unfold Cell.pull
  split
  · rename_i hpull
    have hdevice : c.device = v := (h.2 hpull.1).resolve_left (by simp [hpull.2])
    exact ⟨hdevice, fun _ => .inr hdevice⟩
  · exact h

theorem Fixed.moveTo (h : c.Fixed linked v) (target : Residency) :
    (c.moveTo linked target).Fixed linked v := by
  cases target with
  | host => exact ⟨h.pull.1, fun _ => .inl rfl⟩
  | device =>
    rw [moveTo_device]
    unfold Cell.push
    split
    · exact ⟨h.1, fun _ => .inr h.1⟩
    · rename_i hpush
      refine ⟨h.1, fun hlinked => .inr ((h.2 hlinked).resolve_left fun hhost => ?_)⟩
      exact hpush ⟨hlinked, hhost⟩

theorem Fixed.move (h : c.Fixed linked v) (b : ℕ) (m : Move transport nbytes granule) :
    (c.move linked b m).Fixed linked v := by
  cases m with
  | read t =>
    rw [move_read]
    split
    · exact h.pull
    · exact h
  | moveTo t target =>
    rw [move_moveTo]
    split
    · exact h.moveTo target
    · exact h

theorem Fixed.moves (h : c.Fixed linked v) (b : ℕ) (ms : List (Move transport nbytes granule)) :
    (ms.foldl (Cell.move linked b) c).Fixed linked v := by
  induction ms generalizing c with
  | nil => exact h
  | cons m ms ih => exact ih (h.move b m)

section Run

variable {t : NpuTensor transport nbytes granule} {b : Set.Ico t.start t.stop}
  {body : List (Action β t)}

theorem act_store (linked : Bool) (n : ℕ) (c : Cell β) (b' : Set.Ico t.start t.stop) (v : β) :
    c.act linked n (.store b' v : Action β t) = if (b' : ℕ) = n then { c with host := v } else c :=
  rfl

theorem act_store_of_ne {b' : Set.Ico t.start t.stop} {v' : β}
    (h : .store b v' ≠ (.store b' v' : Action β t)) :
    c.act linked b (.store b' v' : Action β t) = c :=
  if_neg fun hb => h (by rw [Subtype.ext hb])

theorem Fixed.run (h : c.Fixed linked v) (hlast : ∀ v', .store b v' ∉ body) :
    (c.run linked b body).Fixed linked v := by
  induction body generalizing c with
  | nil => exact h
  | cons a body ih =>
    have hrest : ∀ v', .store b v' ∉ body := fun v' hmem => hlast v' (.tail _ hmem)
    refine ih ?_ hrest
    cases a with
    | move m => exact h.move b m
    | store b' v' =>
      rw [act_store_of_ne fun heq => hlast v' (heq ▸ .head _)]
      exact h

theorem run_store (linked : Bool) (c : Cell β) (v : β) (body : List (Action β t)) :
    c.run linked b (.store b v :: body) = ({ c with host := v } : Cell β).run linked b body :=
  congrArg (fun c : Cell β => c.run linked b body) (if_pos rfl)

theorem move_of_not_pulls (h : c.residency = .device) {m : Move transport nbytes granule}
    (hm : ¬m.Pulls b) : c.move linked b m = c := by
  cases m with
  | read t => exact if_neg hm
  | moveTo t target =>
    rw [move_moveTo]
    split
    · rename_i hcovers
      cases target with
      | host => exact (hm ⟨hcovers, rfl⟩).elim
      | device => exact h ▸ moveTo_residency linked c
    · rfl

theorem fixed_of_pulls (hlinked : linked = true) (h : c.residency = .device)
    {m : Move transport nbytes granule} (hm : m.Pulls b) :
    (c.move linked b m).Fixed linked c.device := by
  have hpull : c.pull linked = { c with host := c.device } := if_pos ⟨hlinked, h⟩
  cases m with
  | read t =>
    rw [move_read, if_pos (show t.Covers b from hm), hpull]
    exact ⟨rfl, fun _ => .inr rfl⟩
  | moveTo t target =>
    obtain ⟨hcovers, rfl⟩ := hm
    rw [move_moveTo, if_pos hcovers, moveTo_host, hpull]
    exact ⟨rfl, fun _ => .inr rfl⟩

/-- **A store over a byte of the device** stays until the byte is fetched. -/
theorem run_of_device (hlinked : linked = true) (h : c.residency = .device)
    (hlast : ∀ v', .store b v' ∉ body) :
    ((∀ m, .move m ∈ body → ¬m.Pulls b) → c.run linked b body = c) ∧
      (¬(∀ m, .move m ∈ body → ¬m.Pulls b) → (c.run linked b body).Fixed linked c.device) := by
  induction body with
  | nil => exact ⟨fun _ => rfl, fun hne => (hne fun _ hm => nomatch hm).elim⟩
  | cons a body ih =>
    have hrest : ∀ v', .store b v' ∉ body := fun v' hmem => hlast v' (.tail _ hmem)
    obtain ⟨hkeeps, hloses⟩ := ih hrest
    have hrun : c.run linked b (a :: body) = (c.act linked b a).run linked b body := rfl
    cases a with
    | store b' v' =>
      rw [hrun, act_store_of_ne fun heq => hlast v' (heq ▸ .head _)]
      refine ⟨fun hnone => hkeeps fun m hm => hnone m (.tail _ hm), fun hsome => hloses ?_⟩
      refine fun hnone => hsome fun m hm => hnone m ?_
      exact (List.mem_cons.1 hm).resolve_left nofun
    | move m =>
      by_cases hm : m.Pulls b
      · refine ⟨fun hnone => (hnone m (.head _) hm).elim, fun _ => ?_⟩
        exact (fixed_of_pulls hlinked h hm).run hrest
      · rw [hrun, act, move_of_not_pulls h hm]
        refine ⟨fun hnone => hkeeps fun m' hm' => hnone m' (.tail _ hm'), fun hsome => hloses ?_⟩
        refine fun hnone => hsome fun m' hm' => ?_
        rcases List.mem_cons.1 hm' with heq | hmem
        · obtain rfl := Action.move.inj heq
          exact hm
        · exact hnone m' hmem

/-- **A store in a scope**, from what the byte is when it is stored. -/
theorem store_run_host_iff (hlast : ∀ v', .store b v' ∉ body) :
    (({ c with host := v } : Cell β).run linked b body).host = v ↔
      linked = false ∨ c.residency = .host ∨ c.device = v ∨ ∀ m, .move m ∈ body → ¬m.Pulls b := by
  by_cases hsafe : linked = true → c.residency = .host ∨ c.device = v
  · refine iff_of_true ?_ ?_
    · have hfixed : ({ c with host := v } : Cell β).Fixed linked v := ⟨rfl, hsafe⟩
      exact (hfixed.run hlast).1
    · cases linked with
      | false => exact .inl rfl
      | true => exact .inr ((hsafe rfl).imp_right .inl)
  · push Not at hsafe
    obtain ⟨hlinked, hresidency, hdevice⟩ := hsafe
    have hdevice' : c.residency = .device := by
      cases hc : c.residency with
      | host => exact (hresidency hc).elim
      | device => rfl
    have hrun := @run_of_device _ _ _ _ _ { c with host := v } _ _ body hlinked hdevice' hlast
    constructor
    · intro hhost
      by_contra hne
      push Not at hne
      have hfetched := (hrun.2 fun hnone => by
        obtain ⟨m, hm, hpulls⟩ := hne.2.2.2
        exact hnone m hm hpulls).1
      exact hdevice (hfetched.symm.trans hhost)
    · rintro (h | h | h | hnone)
      · exact absurd (h.symm.trans hlinked) Bool.false_ne_true
      · exact (hresidency h).elim
      · exact (hdevice h).elim
      · rw [hrun.1 hnone]

end Run

end Cell

/-! ## An allocation by its bytes -/

section Cells

variable {β : Type} {transport : Transport} {nbytes granule : ℕ} {s : Storage β} {c : ℕ → Cell β}

def Transport.linked (transport : Transport) : Bool := transport ≠ .hostOnly

/-- The allocation is that of the bytes. -/
structure Cells (transport : Transport) (nbytes granule : ℕ) (s : Storage β) (c : ℕ → Cell β) :
    Prop where
  transport_eq : s.transport = transport
  granule_eq : s.coherence.granule = granule
  consistent : s.coherence.Consistent nbytes fun b => (c b).residency
  host : ∀ b < nbytes, s.host b = (c b).host
  device : ∀ b < nbytes, s.device b = (c b).device
  whole : transport = .wholeExtent → ∀ b < nbytes, ∀ b' < nbytes,
    (c b).residency = (c b').residency

theorem Storage.pull_eq (s : Storage β) (ranges : List (ℕ × ℕ)) :
    s.pull ranges = { s with
      host := fun b =>
        if ranges.any fun r => s.transport.reaches r.1 (r.2 - r.1) b then s.device b
        else s.host b } := by
  induction ranges generalizing s with
  | nil => rfl
  | cons r ranges ih =>
    rw [pull, List.foldl_cons, ← pull, ih]
    unfold syncFromDevice
    congr 1
    funext b
    by_cases hr : s.transport.reaches r.1 (r.2 - r.1) b = true
    · simp [hr]
    · exact (if_congr Iff.rfl rfl (if_neg hr)).trans (if_congr (by simp [hr]) rfl rfl)

theorem Storage.push_eq (s : Storage β) (ranges : List (ℕ × ℕ)) :
    s.push ranges = { s with
      device := fun b =>
        if ranges.any fun r => s.transport.reaches r.1 (r.2 - r.1) b then s.host b
        else s.device b } := by
  induction ranges generalizing s with
  | nil => rfl
  | cons r ranges ih =>
    rw [push, List.foldl_cons, ← push, ih]
    unfold syncToDevice
    congr 1
    funext b
    by_cases hr : s.transport.reaches r.1 (r.2 - r.1) b = true
    · simp [hr]
    · exact (if_congr Iff.rfl rfl (if_neg hr)).trans (if_congr (by simp [hr]) rfl rfl)

/-- **The transfers of a tensor's ranges** reach its bytes in the state, and no others. -/
theorem Cells.reaches_iff (h : Cells transport nbytes granule s c)
    (t : NpuTensor transport nbytes granule) (state : Residency) {b : ℕ} (hb : b < nbytes) :
    ((s.coherence.ranges t.start t.stop state).any fun r =>
        s.transport.reaches r.1 (r.2 - r.1) b) = true ↔
      transport.linked = true ∧ t.Covers b ∧ (c b).residency = state := by
  have hranges {b : ℕ} := @CoherenceMap.Holds.exists_range_iff _ _ t.start t.stop _
    h.consistent.toHolds state b
  rw [h.transport_eq, List.any_eq_true]
  cases transport with
  | ranged =>
    have hreaches (r : ℕ × ℕ) :
        Transport.reaches .ranged r.1 (r.2 - r.1) b = true ↔ r.1 ≤ b ∧ b < r.2 := by
      simp only [Transport.reaches, Bool.and_eq_true, decide_eq_true_eq]
      omega
    simp only [hreaches, hranges]
    exact ⟨fun hr => ⟨rfl, hr.1, hr.2.2⟩, fun hr => ⟨hr.2.1, hb, hr.2.2⟩⟩
  | wholeExtent =>
    obtain ⟨hstart, hstop⟩ := t.whole rfl
    constructor
    · rintro ⟨r, hr, -⟩
      have hrun := (h.consistent.toHolds.mem_ranges_iff (by omega)).1 hr
      have hlt := hrun.lt
      have hin : r.1 < nbytes := lt_of_lt_of_le hlt hrun.le_nbytes
      refine ⟨rfl, ⟨by omega, by omega⟩, ?_⟩
      exact (h.whole rfl b hb r.1 hin).trans (hrun.inState r.1 le_rfl hlt)
    · rintro ⟨-, hcovers, hstate⟩
      obtain ⟨r, hr, -⟩ := hranges.2 ⟨hcovers, hb, hstate⟩
      exact ⟨r, hr, rfl⟩
  | hostOnly =>
    refine iff_of_false (fun ⟨_, _, hr⟩ => nomatch hr) fun hlinked => nomatch hlinked.1

/-- Fetching what the device holds of a tensor. -/
theorem Cells.pull (h : Cells transport nbytes granule s c)
    (t : NpuTensor transport nbytes granule) :
    Cells transport nbytes granule (s.pull (s.coherence.ranges t.start t.stop .device))
      fun b => if t.Covers b then (c b).pull transport.linked else c b := by
  have hresidency : (fun b => (if t.Covers b then (c b).pull transport.linked else c b).residency) =
      fun b => (c b).residency := by
    funext b
    split
    · exact Cell.pull_residency _ _
    · rfl
  rw [Storage.pull_eq]
  refine ⟨h.transport_eq, h.granule_eq, hresidency ▸ h.consistent, fun b hb => ?_, fun b hb => ?_,
    fun hwhole b hb b' hb' => ?_⟩
  · simp only [h.reaches_iff t .device hb, h.host b hb, h.device b hb]
    unfold Cell.pull
    split_ifs <;> tauto
  · simp only [h.device b hb]
    unfold Cell.pull
    split_ifs <;> rfl
  · exact (congrFun hresidency b).trans ((h.whole hwhole b hb b' hb').trans
      (congrFun hresidency b').symm)

/-- Sending what the host holds of a tensor. -/
theorem Cells.push (h : Cells transport nbytes granule s c)
    (t : NpuTensor transport nbytes granule) :
    Cells transport nbytes granule (s.push (s.coherence.ranges t.start t.stop .host))
      fun b => if t.Covers b then (c b).push transport.linked else c b := by
  have hresidency : (fun b => (if t.Covers b then (c b).push transport.linked else c b).residency) =
      fun b => (c b).residency := by
    funext b
    split
    · exact Cell.push_residency _ _
    · rfl
  rw [Storage.push_eq]
  refine ⟨h.transport_eq, h.granule_eq, hresidency ▸ h.consistent, fun b hb => ?_, fun b hb => ?_,
    fun hwhole b hb b' hb' => ?_⟩
  · simp only [h.host b hb]
    unfold Cell.push
    split_ifs <;> rfl
  · simp only [h.reaches_iff t .host hb, h.host b hb, h.device b hb]
    unfold Cell.push
    split_ifs <;> tauto
  · exact (congrFun hresidency b).trans ((h.whole hwhole b hb b' hb').trans
      (congrFun hresidency b').symm)

/-- **Recording a residency** of a tensor does not raise. -/
theorem Cells.record (h : Cells transport nbytes granule s c)
    (t : NpuTensor transport nbytes granule) (state : Residency) :
    ∃ s', s.record t state = .ok s' ∧ Cells transport nbytes granule s'
      fun b => if t.Covers b then { c b with residency := state } else c b := by
  have hstart : s.coherence.granule ∣ t.start := by
    rw [h.granule_eq]
    exact t.start_dvd
  have hstop : s.coherence.granule ∣ t.stop ∨ t.stop = nbytes := by
    rw [h.granule_eq]
    exact t.stop_dvd
  have hnone := h.consistent.set_eq_none t.stop_le hstart hstop state
  have hset := h.consistent.set t.stop_le hnone
  have hgranule := (s.coherence.set_granule t.start t.stop state).trans h.granule_eq
  refine ⟨{ s with coherence := (s.coherence.set t.start t.stop state).1 }, ?_, h.transport_eq,
    hgranule, ?_, fun b hb => ?_, fun b hb => ?_, fun hwhole b hb b' hb' => ?_⟩
  · rw [Storage.record]
    split
    · rename_i heq
      rw [heq] at hnone
      cases hnone
    · rename_i heq
      rw [heq]
  · have heq : (fun b => (if t.Covers b then { c b with residency := state } else c b).residency) =
        CoherenceMap.overwrite (fun b => (c b).residency) t.start t.stop state := by
      funext b
      by_cases hb : t.Covers b
      · rw [if_pos hb]
        exact (if_pos hb).symm
      · rw [if_neg hb]
        exact (if_neg hb).symm
    rw [heq]
    exact hset
  · rw [h.host b hb]
    split_ifs <;> rfl
  · rw [h.device b hb]
    split_ifs <;> rfl
  · obtain ⟨hstart, hstop⟩ := t.whole hwhole
    rw [if_pos ⟨by omega, by omega⟩, if_pos ⟨by omega, by omega⟩]

theorem get_of_uniform {m : CoherenceMap} {state : Residency} (h : m.uniform = some state)
    (start stop : ℕ) : m.get start stop = some state := by
  rw [CoherenceMap.get, h]

theorem Cells.residency_of_get (h : Cells transport nbytes granule s c)
    (t : NpuTensor transport nbytes granule) {state : Residency}
    (hget : s.coherence.get t.start t.stop = some state) {b : ℕ} (hb : t.Covers b) :
    (c b).residency = state := by
  have hstop := t.stop_le
  have hlt := hb.1.trans_lt hb.2
  exact (h.consistent.get_eq_some_iff hlt (by omega)).1 hget b hb.1 hb.2 (hb.2.trans_le hstop)

/-- **A read** fetches the bytes of the tensor. -/
theorem Cells.reconcileForRead (h : Cells transport nbytes granule s c)
    (t : NpuTensor transport nbytes granule) :
    Cells transport nbytes granule (s.reconcileForRead t)
      fun b => if t.Covers b then (c b).pull transport.linked else c b := by
  have hskip (hget : s.coherence.get t.start t.stop = some .host) :
      (fun b => if t.Covers b then (c b).pull transport.linked else c b) = c := by
    funext b
    split
    · rename_i hb
      exact Cell.pull_of_host _ (h.residency_of_get t hget hb)
    · rfl
  rw [Storage.reconcileForRead]
  split_ifs with huniform hget
  · rw [hskip (get_of_uniform huniform _ _)]
    exact h
  · rw [hskip hget]
    exact h
  · exact h.pull t

/-- **A move** is one of the bytes of the tensor. -/
theorem Cells.moveTo (h : Cells transport nbytes granule s c)
    (t : NpuTensor transport nbytes granule) (target : Residency) :
    ∃ s', s.moveTo t target = .ok s' ∧ Cells transport nbytes granule s'
      fun b => if t.Covers b then (c b).moveTo transport.linked target else c b := by
  have hskip (hget : s.coherence.get t.start t.stop = some target) :
      (fun b => if t.Covers b then (c b).moveTo transport.linked target else c b) = c := by
    funext b
    split
    · rename_i hb
      exact h.residency_of_get t hget hb ▸ Cell.moveTo_residency _ _
    · rfl
  unfold Storage.moveTo
  split_ifs with huniform hget
  · rw [hskip (get_of_uniform huniform _ _)]
    exact ⟨s, rfl, h⟩
  · rw [hskip hget]
    exact ⟨s, rfl, h⟩
  · cases target with
    | device =>
      obtain ⟨s', hs', hcells⟩ := (h.push t).record t .device
      refine ⟨s', hs', ?_⟩
      convert hcells using 2 with b
      split_ifs <;> rfl
    | host =>
      obtain ⟨s', hs', hcells⟩ := (h.pull t).record t .host
      refine ⟨s', hs', ?_⟩
      convert hcells using 2 with b
      split_ifs <;> rfl

theorem Cells.move (h : Cells transport nbytes granule s c) (m : Move transport nbytes granule) :
    ∃ s', s.move m = .ok s' ∧
      Cells transport nbytes granule s' fun b => (c b).move transport.linked b m := by
  cases m with
  | read t => exact ⟨_, rfl, h.reconcileForRead t⟩
  | moveTo t target => exact h.moveTo t target

theorem Cells.moves (h : Cells transport nbytes granule s c)
    (ms : List (Move transport nbytes granule)) : ∃ s', s.moves ms = .ok s' ∧
      Cells transport nbytes granule s' fun b => ms.foldl (Cell.move transport.linked b) (c b) := by
  induction ms generalizing s c with
  | nil => exact ⟨s, rfl, h⟩
  | cons m ms ih =>
    obtain ⟨s', hs', hcells⟩ := h.move m
    obtain ⟨s'', hs'', hcells⟩ := ih hcells
    refine ⟨s'', ?_, hcells⟩
    rw [Storage.moves, List.foldlM_cons, hs']
    exact hs''

variable {t : NpuTensor transport nbytes granule}

/-- **What happens in a scope** happens to the bytes, each on its own. -/
theorem Cells.act (h : Cells transport nbytes granule s c) (a : Action β t) :
    ∃ s', s.act a = .ok s' ∧
      Cells transport nbytes granule s' fun b => (c b).act transport.linked b a := by
  cases a with
  | move m => exact h.move m
  | store b' v =>
    have hresidency :
        (fun b => ((c b).act transport.linked b (.store b' v : Action β t)).residency) =
          fun b => (c b).residency := by
      funext b
      rw [Cell.act_store]
      split <;> rfl
    refine ⟨_, rfl, h.transport_eq, h.granule_eq, hresidency ▸ h.consistent, fun b hb => ?_,
      fun b hb => ?_, fun hwhole b hb b' hb' => ?_⟩
    · rw [Cell.act_store]
      rcases eq_or_ne (b' : ℕ) b with rfl | hne
      · rw [if_pos rfl]
        exact Function.update_self _ _ _
      · rw [if_neg hne, ← h.host b hb]
        exact Function.update_of_ne hne.symm _ _
    · rw [Cell.act_store, h.device b hb]
      split_ifs <;> rfl
    · exact (congrFun hresidency b).trans ((h.whole hwhole b hb b' hb').trans
        (congrFun hresidency b').symm)

theorem Cells.run (h : Cells transport nbytes granule s c) (body : List (Action β t)) :
    ∃ s', s.run body = .ok s' ∧
      Cells transport nbytes granule s' fun b => (c b).run transport.linked b body := by
  induction body generalizing s c with
  | nil => exact ⟨s, rfl, h⟩
  | cons a body ih =>
    obtain ⟨s', hs', hcells⟩ := h.act a
    obtain ⟨s'', hs'', hcells⟩ := ih hcells
    refine ⟨s'', ?_, hcells⟩
    rw [Storage.run, List.foldlM_cons, hs']
    exact hs''

theorem Cells.numpy_getElem? (h : Cells transport nbytes granule s c)
    (u : NpuTensor transport nbytes granule) {b : ℕ} (hb : u.Covers b) :
    (s.numpy u).2[b - u.start]? = some ((c b).pull transport.linked).host := by
  have hin := hb.2.trans_le u.stop_le
  rw [Storage.numpy, List.getElem?_map, List.getElem?_range' (by have := hb.1; have := hb.2; omega),
    Option.map_some, Nat.one_mul, Nat.add_sub_cancel' hb.1, (h.reconcileForRead u).host b hin]
  simp only [if_pos hb]

end Cells

/-! ## What a scope leaves -/

section Scopes

variable {β : Type} {transport : Transport} {nbytes granule : ℕ}

theorem cells_allocate (hpos : 0 < nbytes) (state : Residency) (host device : ℕ → β) :
    Cells transport nbytes granule (.allocate transport nbytes granule state host device)
      fun b => ⟨state, host b, device b⟩ :=
  ⟨rfl, rfl, CoherenceMap.consistent_init hpos state granule, fun _ _ => rfl, fun _ _ => rfl,
    fun _ _ _ _ _ => rfl⟩

theorem Cells.recordAll {s : Storage β} {c : ℕ → Cell β} (h : Cells transport nbytes granule s c)
    (history : List (NpuTensor transport nbytes granule × Residency)) :
    ∃ s' c', s.recordAll history = .ok s' ∧ Cells transport nbytes granule s' c' := by
  induction history generalizing s c with
  | nil => exact ⟨s, c, rfl, h⟩
  | cons call history ih =>
    obtain ⟨s', hs', hcells⟩ := h.record call.1 call.2
    obtain ⟨s'', c'', hs'', hcells⟩ := ih hcells
    refine ⟨s'', c'', ?_, hcells⟩
    rw [Storage.recordAll, List.foldlM_cons, hs']
    exact hs''

variable {t : NpuTensor transport nbytes granule}

theorem Cells.numpy_of_fixed {s : Storage β} {c : ℕ → Cell β}
    (h : Cells transport nbytes granule s c) {b : ℕ} {v : β}
    (hfixed : (c b).Fixed transport.linked v) (later : List (Move transport nbytes granule))
    {s' : Storage β} (hs' : s.moves later = .ok s') (u : NpuTensor transport nbytes granule)
    (hb : u.Covers b) : (s'.numpy u).2[b - u.start]? = some v := by
  obtain ⟨s'', hs'', hcells⟩ := h.moves later
  obtain rfl : s'' = s' := Except.ok.inj (hs''.symm.trans hs')
  rw [hcells.numpy_getElem? u hb, (hfixed.moves b later).pull.1]

/-- **What is stored in a scope is read after it**, unless the device held the byte, the store
changed it, and a read or a move in the scope fetches it again. -/
theorem mutate_keeps_iff (state : Residency) (host device : ℕ → β)
    (history : List (NpuTensor transport nbytes granule × Residency)) {s : Storage β}
    (h : (Storage.allocate transport nbytes granule state host device).recordAll history = .ok s)
    (before after : List (Action β t)) (b : Set.Ico t.start t.stop) (v : β)
    (hlast : ∀ v', Action.store b v' ∉ after) :
    ∃ stored left, (s.reconcileForRead t).run before = .ok stored ∧
      s.mutate t (before ++ .store b v :: after) = .ok left ∧
      ((∀ (later : List (Move transport nbytes granule)) (s' : Storage β),
          left.moves later = .ok s' → ∀ u : NpuTensor transport nbytes granule, u.Covers b →
            (s'.numpy u).2[b - u.start]? = some v) ↔
        transport = .hostOnly ∨ stored.coherence.get b (b + 1) = some .host ∨
          stored.device b = v ∨ ∀ m, .move m ∈ after → ¬m.Pulls b) := by
  have hcovers : t.Covers b := b.2
  have hin : (b : ℕ) < nbytes := b.2.2.trans_le t.stop_le
  obtain ⟨s₀, c, hs₀, hc⟩ := (cells_allocate (by omega) state host device).recordAll history
  obtain rfl : s₀ = s := Except.ok.inj (hs₀.symm.trans h)
  obtain ⟨stored, hstored, hcells⟩ := (hc.reconcileForRead t).run before
  obtain ⟨left', hleft', hcells'⟩ := hcells.run (.store b v :: after)
  obtain ⟨left, hleft, hcells''⟩ := hcells'.record t .host
  refine ⟨stored, left, hstored, ?_, ?_⟩
  · rw [Storage.mutate, Storage.run, List.foldlM_append]
    rw [Storage.run] at hstored hleft'
    rw [hstored]
    refine (congrArg (· >>= _) hleft').trans ?_
    exact hleft
  have hget : stored.coherence.get b (b + 1) = some .host ↔ _ :=
    hcells.consistent.get_eq_some_iff (Nat.lt_succ_self _) hin
  have hresidency : stored.coherence.get b (b + 1) = some .host ↔
      (((if t.Covers b then (c b).pull transport.linked else c b).run transport.linked b
        before)).residency = .host := by
    rw [hget]
    constructor
    · exact fun hall => hall b le_rfl (Nat.lt_succ_self _) hin
    · intro heq b' hb hb' _
      obtain rfl : b' = b := by omega
      exact heq
  have hlinked : transport = .hostOnly ↔ transport.linked = false := by
    cases transport <;> simp [Transport.linked]
  rw [hresidency, hcells.device b hin, hlinked]
  have hreads {later : List (Move transport nbytes granule)} {s' : Storage β}
      (hs' : left.moves later = .ok s') (u : NpuTensor transport nbytes granule)
      (hu : u.Covers b) : (s'.numpy u).2[b - u.start]? = some (({ (if t.Covers b then
        (c b).pull transport.linked else c b).run transport.linked b before with host := v } :
          Cell β).run transport.linked b after).host := by
    refine hcells''.numpy_of_fixed (b := b) ?_ later hs' u hu
    simp only [if_pos hcovers, Cell.run_store]
    exact ⟨rfl, fun _ => .inl rfl⟩
  generalize (if t.Covers b then (c b).pull transport.linked else c b).run transport.linked b
    before = x at *
  rw [← Cell.store_run_host_iff hlast]
  constructor
  · intro h
    have hleft' : left.moves ([] : List (Move transport nbytes granule)) = .ok left := rfl
    exact Option.some_inj.1 ((hreads hleft' t hcovers).symm.trans (h [] left hleft' t hcovers))
  · intro hkept later s' hs' u hu
    rw [hreads hs' u hu, hkept]

def zeros : Storage ℕ := .allocate .ranged 64 64 .device (fun _ => 0) fun _ => 0

def zerosOwner : NpuTensor .ranged 64 64 := .owner .ranged 64 64

/-- A one is stored and the tensor read in the scope; it is zero afterwards. -/
theorem zeros_storeRead_lost :
    ∃ left, zeros.mutate zerosOwner
        [.store ⟨0, by decide⟩ 1, .move (.read zerosOwner)] = .ok left ∧
      (left.numpy zerosOwner).2[0]? = some 0 :=
  ⟨_, rfl, rfl⟩

def zerosRead : List (Action ℕ zerosOwner) := [.move (.read zerosOwner)]

def zerosSent : List (Action ℕ zerosOwner) := [.move (.moveTo zerosOwner .device)]

theorem zeros_keeps_iff :
    ∃ stored left, (zeros.reconcileForRead zerosOwner).run zerosRead = .ok stored ∧
      zeros.mutate zerosOwner (zerosRead ++ .store ⟨0, by decide⟩ 1 :: zerosSent) = .ok left ∧
      ((∀ (later : List (Move .ranged 64 64)) (s' : Storage ℕ), left.moves later = .ok s' →
          ∀ u : NpuTensor .ranged 64 64, u.Covers 0 → (s'.numpy u).2[0 - u.start]? = some 1) ↔
        Transport.ranged = .hostOnly ∨ stored.coherence.get 0 1 = some .host ∨
          stored.device 0 = 1 ∨ ∀ m, .move m ∈ zerosSent → ¬m.Pulls 0) :=
  @mutate_keeps_iff _ .ranged 64 64 zerosOwner .device (fun _ => 0) (fun _ => 0) [] zeros rfl
    zerosRead zerosSent ⟨0, by decide⟩ 1 fun _ h => nomatch List.mem_singleton.1 h

end Scopes

end MlirAie.Runtime
