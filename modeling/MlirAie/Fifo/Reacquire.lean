import MlirAie.Lib.LastEffect

/-!
# Acquires of locks that are held

After the loops of a core are unrolled, the acquires of binary locks that the core already holds are
erased. What is held is followed through one block at a time, by the lock operations directly in it.

* `Block.sweep`, `removeRedundantBinaryAcquires`: the pass;
* **`removeRedundantBinaryAcquires_leaves`**: the pass takes just the marked operations out of every
  run;
* **`sweep_held_iff`**: erased acquires are those of held locks exactly there.
-/

namespace MlirAie.Fifo.Unroll

open MlirAie.Lib

/-! ## The pass -/

inductive LockAction where
  | acquire
  | acquireGreaterEqual
  | release
  deriving DecidableEq

mutual

/-- An operation of a core; `erase` marks a lock operation to erase. -/
inductive Op where
  | useLock (action : LockAction) (lock : ℕ) (erase : Bool)
  | other
  | conditional (thenBlock elseBlock : Block)
  | loop (trips : Trips) (body : Block)

inductive Block where
  | nil
  | cons (op : Op) (rest : Block)

end

def Op.heldAfter (held : Finset ℕ) : Op → Finset ℕ
  | .useLock .acquire lock _ => insert lock held
  | .useLock .release lock _ => held.erase lock
  | _ => held

mutual

/-- Marks a lock operation, and sweeps the blocks of a region operation. -/
def Op.sweep (held : Finset ℕ) : Op → Op
  | .useLock .acquire lock _ => .useLock .acquire lock (lock ∈ held)
  | .useLock action lock _ => .useLock action lock false
  | .other => .other
  | .conditional thenBlock elseBlock =>
    .conditional (thenBlock.sweepFrom ∅) (elseBlock.sweepFrom ∅)
  | .loop trips body => .loop trips (body.sweepFrom ∅)

def Block.sweepFrom (held : Finset ℕ) : Block → Block
  | .nil => .nil
  | .cons op rest => .cons (op.sweep held) (rest.sweepFrom (op.heldAfter held))

end

/-- Every block is swept with nothing held on its entry. -/
def Block.sweep (block : Block) : Block := block.sweepFrom ∅

mutual

def Op.drop : Op → Op
  | .conditional thenBlock elseBlock => .conditional thenBlock.drop elseBlock.drop
  | .loop trips body => .loop trips body.drop
  | op => op

def Block.drop : Block → Block
  | .nil => .nil
  | .cons (.useLock _ _ true) rest => rest.drop
  | .cons op rest => .cons op.drop rest.drop

end

/-- **The pass** on the body of a core. -/
def removeRedundantBinaryAcquires (block : Block) : Block := block.sweep.drop

/-! ## Runs -/

/-- A lock operation that a run comes to. -/
structure Use where
  action : LockAction
  lock : ℕ
  erase : Bool
  deriving DecidableEq

mutual

def Op.prog : Op → Prog Use
  | .useLock action lock erase => .act ⟨action, lock, erase⟩
  | .other => .skip
  | .conditional thenBlock elseBlock => .branch thenBlock.prog elseBlock.prog
  | .loop trips body => .loop trips body.prog

def Block.prog : Block → Prog Use
  | .nil => .skip
  | .cons op rest => .seq op.prog rest.prog

end

def onLock (lock : ℕ) (use : Use) : Option LockAction :=
  if use.lock = lock then some use.action else none

/-- **The core has acquired the lock, and not released it since.** -/
def Held (lock : ℕ) (history : List Use) : Prop :=
  ∃ action, lastEffect (onLock lock) history = some action ∧ action ≠ .release

def erasedAcquire (lock : ℕ) : Use := ⟨.acquire, lock, true⟩

/-! ## What is left of a run -/

/-- What is left of the operations of a run once those marked are erased. -/
def kept (t : List Use) : List Use := t.filter fun use => !use.erase

theorem kept_append (s t : List Use) : kept (s ++ t) = kept s ++ kept t := List.filter_append s t

theorem kept_flatten (turns : List (List Use)) :
    kept turns.flatten = (turns.map kept).flatten := by
  induction turns with
  | nil => rfl
  | cons s turns ih => rw [List.flatten_cons, kept_append, ih, List.map_cons, List.flatten_cons]

/-- The runs of what is left are what is left of the runs. -/
def Leaves (p q : Prog Use) : Prop := ∀ t, q.Completes t ↔ ∃ s, p.Completes s ∧ t = kept s

theorem Leaves.seq {p q p' q' : Prog Use} (hp : Leaves p p') (hq : Leaves q q') :
    Leaves (.seq p q) (.seq p' q') := by
  intro t
  constructor
  · rintro ⟨_, _, hs, hu, rfl⟩
    obtain ⟨s, hs', rfl⟩ := (hp _).1 hs
    obtain ⟨u, hu', rfl⟩ := (hq _).1 hu
    exact ⟨s ++ u, ⟨s, u, hs', hu', rfl⟩, (kept_append s u).symm⟩
  · rintro ⟨_, ⟨s, u, hs, hu, rfl⟩, rfl⟩
    exact ⟨kept s, kept u, (hp _).2 ⟨s, hs, rfl⟩, (hq _).2 ⟨u, hu, rfl⟩, kept_append s u⟩

theorem Leaves.branch {p q p' q' : Prog Use} (hp : Leaves p p') (hq : Leaves q q') :
    Leaves (.branch p q) (.branch p' q') := by
  intro t
  change p'.Completes t ∨ q'.Completes t ↔ ∃ s, (p.Completes s ∨ q.Completes s) ∧ t = kept s
  simp only [hp t, hq t, or_and_right, exists_or]

theorem Leaves.loop {p p' : Prog Use} (hp : Leaves p p') (trips : Trips) :
    Leaves (.loop trips p) (.loop trips p') := by
  intro t
  constructor
  · rintro ⟨turns, hallows, hturns, rfl⟩
    have hwhole : ∃ whole : List (List Use), (∀ s ∈ whole, p.Completes s) ∧
        turns = whole.map kept := by
      clear hallows
      induction turns with
      | nil => exact ⟨[], List.forall_mem_nil _, rfl⟩
      | cons s turns ih =>
        obtain ⟨s', hs', rfl⟩ := (hp s).1 (hturns s List.mem_cons_self)
        obtain ⟨whole, hwhole, rfl⟩ := ih fun u hu => hturns u (List.mem_cons_of_mem _ hu)
        exact ⟨s' :: whole, List.forall_mem_cons.2 ⟨hs', hwhole⟩, rfl⟩
    obtain ⟨whole, hwhole, rfl⟩ := hwhole
    rw [List.length_map] at hallows
    exact ⟨_, ⟨whole, hallows, hwhole, rfl⟩, (kept_flatten whole).symm⟩
  · rintro ⟨_, ⟨turns, hallows, hturns, rfl⟩, rfl⟩
    refine ⟨turns.map kept, by rwa [List.length_map], ?_, kept_flatten turns⟩
    intro u hu
    obtain ⟨s, hs, rfl⟩ := List.mem_map.1 hu
    exact (hp _).2 ⟨s, hturns s hs, rfl⟩

theorem leaves_self {p : Prog Use} (h : ∀ s, p.Completes s → kept s = s) : Leaves p p := by
  intro t
  constructor
  · intro ht
    exact ⟨t, ht, (h t ht).symm⟩
  · rintro ⟨s, hs, rfl⟩
    rwa [h s hs]

theorem Leaves.skip_seq {p q : Prog Use} (h : Leaves p q) {use : Use} (herase : use.erase = true) :
    Leaves (.seq (.act use) p) q := by
  have hkept : kept [use] = [] := by rw [kept, List.filter_cons, herase]; rfl
  intro t
  rw [h t]
  constructor
  · rintro ⟨s, hs, rfl⟩
    exact ⟨[use] ++ s, ⟨[use], s, rfl, hs, rfl⟩, by rw [kept_append, hkept]; rfl⟩
  · rintro ⟨_, ⟨_, s, rfl, hs, rfl⟩, rfl⟩
    exact ⟨s, hs, by rw [kept_append, hkept]; rfl⟩

mutual

theorem Op.drop_leaves (op : Op)
    (h : ∀ action lock, op ≠ .useLock action lock true) : Leaves op.prog op.drop.prog := by
  cases op with
  | useLock action lock erase =>
    cases erase with
    | true => exact absurd rfl (h action lock)
    | false => exact leaves_self fun s hs => by cases hs; rfl
  | other => exact leaves_self fun s hs => by cases hs; rfl
  | conditional thenBlock elseBlock => exact thenBlock.drop_leaves.branch elseBlock.drop_leaves
  | loop trips body => exact body.drop_leaves.loop trips

theorem Block.drop_leaves (block : Block) : Leaves block.prog block.drop.prog := by
  cases block with
  | nil => exact leaves_self fun s hs => by cases hs; rfl
  | cons op rest =>
    by_cases h : ∃ action lock, op = .useLock action lock true
    · obtain ⟨action, lock, rfl⟩ := h
      exact rest.drop_leaves.skip_seq rfl
    · have hop : ∀ action lock, op ≠ .useLock action lock true :=
        fun action lock heq => h ⟨action, lock, heq⟩
      rw [Block.drop.eq_3 op rest (fun action lock heq => hop action lock heq)]
      exact (op.drop_leaves hop).seq rest.drop_leaves

end

/-- The body of the loop may run. -/
def Starts : Trips → Bool
  | .times n => n ≠ 0
  | _ => true

def onBinary (lock : ℕ) (use : Use) : Option LockAction :=
  if use.lock = lock ∧ use.action ≠ .acquireGreaterEqual then some use.action else none

def Op.direct : Op → List Use
  | .useLock action lock erase => [⟨action, lock, erase⟩]
  | _ => []

mutual

/-- `direct` are the lock operations directly in the block before the operation, and `before` is
all that comes before it there. -/
def Op.Guarded (direct : List Use) (before : Prog Use) : Op → Prop
  | .useLock .acquire lock _ => lastEffect (onBinary lock) direct = some .acquire →
      before.mayEnd (onLock lock) (some .release) = false
  | .useLock _ _ _ => True
  | .other => True
  | .conditional thenBlock elseBlock =>
    thenBlock.GuardedFrom [] .skip ∧ elseBlock.GuardedFrom [] .skip
  | .loop trips body => Starts trips = true → body.GuardedFrom [] .skip

def Block.GuardedFrom (direct : List Use) (before : Prog Use) : Block → Prop
  | .nil => True
  | .cons op rest => (before.mayComplete = true → op.Guarded direct before) ∧
      rest.GuardedFrom (direct ++ op.direct) (.seq before op.prog)

end

/-- **Where the lock operations directly in a block acquire a lock again**, nothing that comes
before in the block can leave the lock released. -/
def Block.Guarded (block : Block) : Prop := block.GuardedFrom [] .skip

mutual

def Op.MarkGuarded (before : Prog Use) : Op → Prop
  | .useLock .acquire lock true => before.mayEnd (onLock lock) (some .release) = false
  | .useLock _ _ _ => True
  | .other => True
  | .conditional thenBlock elseBlock =>
    thenBlock.MarkGuardedFrom .skip ∧ elseBlock.MarkGuardedFrom .skip
  | .loop trips body => Starts trips = true → body.MarkGuardedFrom .skip

def Block.MarkGuardedFrom (before : Prog Use) : Block → Prop
  | .nil => True
  | .cons op rest => (before.mayComplete = true → op.MarkGuarded before) ∧
      rest.MarkGuardedFrom (.seq before op.prog)

end

/-- Two programs that end with the same actions on every lock. -/
structure EndsAlike (p q : Prog Use) : Prop where
  mayComplete : p.mayComplete = q.mayComplete
  mayEnd : ∀ lock x, p.mayEnd (onLock lock) x = q.mayEnd (onLock lock) x

theorem EndsAlike.refl (p : Prog Use) : EndsAlike p p := ⟨rfl, fun _ _ => rfl⟩

theorem EndsAlike.seq {p q p' q' : Prog Use} (hp : EndsAlike p p') (hq : EndsAlike q q') :
    EndsAlike (.seq p q) (.seq p' q') :=
  ⟨by rw [Prog.mayComplete, Prog.mayComplete, hp.mayComplete, hq.mayComplete],
    fun lock x => by
      rw [Prog.mayEnd, Prog.mayEnd, hp.mayComplete, hp.mayEnd, hq.mayEnd, hq.mayEnd]⟩

theorem EndsAlike.branch {p q p' q' : Prog Use} (hp : EndsAlike p p') (hq : EndsAlike q q') :
    EndsAlike (.branch p q) (.branch p' q') :=
  ⟨by rw [Prog.mayComplete, Prog.mayComplete, hp.mayComplete, hq.mayComplete],
    fun lock x => by rw [Prog.mayEnd, Prog.mayEnd, hp.mayEnd, hq.mayEnd]⟩

theorem EndsAlike.loop {p p' : Prog Use} (hp : EndsAlike p p') (trips : Trips) :
    EndsAlike (.loop trips p) (.loop trips p') := by
  cases trips with
  | times n =>
    exact ⟨by rw [Prog.mayComplete, Prog.mayComplete, hp.mayComplete],
      fun lock x => by rw [Prog.mayEnd, Prog.mayEnd, hp.mayEnd]⟩
  | any => exact ⟨rfl, fun lock x => by rw [Prog.mayEnd, Prog.mayEnd, hp.mayEnd]⟩
  | forever => exact ⟨rfl, fun _ _ => rfl⟩

mutual

theorem Op.sweep_endsAlike (op : Op) (held : Finset ℕ) :
    EndsAlike (op.sweep held).prog op.prog := by
  cases op with
  | useLock action lock erase => cases action <;> exact ⟨rfl, fun _ _ => rfl⟩
  | other => exact EndsAlike.refl _
  | conditional thenBlock elseBlock =>
    exact (thenBlock.sweepFrom_endsAlike ∅).branch (elseBlock.sweepFrom_endsAlike ∅)
  | loop trips body => exact (body.sweepFrom_endsAlike ∅).loop trips

theorem Block.sweepFrom_endsAlike (block : Block) (held : Finset ℕ) :
    EndsAlike (block.sweepFrom held).prog block.prog := by
  cases block with
  | nil => exact EndsAlike.refl _
  | cons op rest =>
    exact (op.sweep_endsAlike held).seq (rest.sweepFrom_endsAlike (op.heldAfter held))

end

/-- The held set has the locks that the operations directly in the block acquired last. -/
def Follows (held : Finset ℕ) (direct : List Use) : Prop :=
  ∀ lock, lock ∈ held ↔ lastEffect (onBinary lock) direct = some .acquire

theorem follows_empty : Follows ∅ [] := fun _ =>
  iff_of_false (Finset.notMem_empty _) fun h => by cases h

theorem Follows.after {held : Finset ℕ} {direct : List Use} (h : Follows held direct) (op : Op) :
    Follows (op.heldAfter held) (direct ++ op.direct) := by
  cases op with
  | useLock action own erase =>
    intro lock
    rw [Op.direct, lastEffect_append, lastEffect_single, onBinary]
    cases action with
    | acquire =>
      rw [Op.heldAfter, Finset.mem_insert]
      by_cases hown : own = lock
      · simp [hown]
      · simp [hown, Ne.symm hown, h lock]
    | acquireGreaterEqual => simp [Op.heldAfter, h lock]
    | release =>
      rw [Op.heldAfter, Finset.mem_erase]
      by_cases hown : own = lock
      · simp [hown]
      · simp [hown, Ne.symm hown, h lock]
  | other => exact (List.append_nil direct).symm ▸ h
  | conditional thenBlock elseBlock => exact (List.append_nil direct).symm ▸ h
  | loop trips body => exact (List.append_nil direct).symm ▸ h

mutual

theorem Op.markGuarded_iff (op : Op) {held : Finset ℕ} {direct : List Use}
    {before before' : Prog Use} (hheld : Follows held direct) (h : EndsAlike before' before) :
    (op.sweep held).MarkGuarded before' ↔ op.Guarded direct before := by
  cases op with
  | useLock action lock erase =>
    cases action with
    | acquire =>
      rw [Op.sweep, Op.Guarded, ← hheld lock]
      by_cases hlock : lock ∈ held
      · rw [decide_eq_true hlock, Op.MarkGuarded, h.mayEnd]
        exact ⟨fun hnot _ => hnot, fun hnot => hnot hlock⟩
      · rw [decide_eq_false hlock]
        exact iff_of_true trivial fun hmem => absurd hmem hlock
    | acquireGreaterEqual => exact Iff.rfl
    | release => exact Iff.rfl
  | other => exact Iff.rfl
  | conditional thenBlock elseBlock =>
    exact and_congr (thenBlock.markGuardedFrom_iff follows_empty (EndsAlike.refl _))
      (elseBlock.markGuardedFrom_iff follows_empty (EndsAlike.refl _))
  | loop trips body =>
    exact imp_congr_right fun _ => body.markGuardedFrom_iff follows_empty (EndsAlike.refl _)

theorem Block.markGuardedFrom_iff (block : Block) {held : Finset ℕ} {direct : List Use}
    {before before' : Prog Use} (hheld : Follows held direct) (h : EndsAlike before' before) :
    (block.sweepFrom held).MarkGuardedFrom before' ↔ block.GuardedFrom direct before := by
  cases block with
  | nil => exact Iff.rfl
  | cons op rest =>
    rw [Block.sweepFrom, Block.MarkGuardedFrom, Block.GuardedFrom, h.mayComplete]
    exact and_congr (imp_congr_right fun _ => op.markGuarded_iff hheld h)
      (rest.markGuardedFrom_iff (hheld.after op) (h.seq (op.sweep_endsAlike held)))

end

/-- **The marks of the sweep** are where a block acquires again by the operations in it. -/
theorem Block.sweep_markGuarded_iff (block : Block) :
    block.sweep.MarkGuardedFrom .skip ↔ block.Guarded :=
  block.markGuardedFrom_iff follows_empty (EndsAlike.refl _)

/-! ## Histories -/

theorem Held.append {lock : ℕ} {s t : List Use} (h : Held lock t) : Held lock (s ++ t) := by
  obtain ⟨action, hlast, hne⟩ := h
  exact ⟨action, lastEffect_append_some hlast, hne⟩

/-- Every lock of the held set was used, by the operations that ran before. -/
def Covers (before : Prog Use) (held : Finset ℕ) : Prop :=
  ∀ t, before.Completes t → ∀ lock ∈ held, lastEffect (onLock lock) t ≠ none

theorem covers_empty : Covers .skip ∅ := fun _ _ _ h => absurd h (Finset.notMem_empty _)

theorem completes_nil : (Prog.skip : Prog Use).Completes [] := rfl

theorem Covers.after {before : Prog Use} {held : Finset ℕ} (h : Covers before held) (op : Op) :
    Covers (.seq before (op.sweep held).prog) (op.heldAfter held) := by
  rintro _ ⟨s, u, hs, hu, rfl⟩ lock hlock
  rw [lastEffect_append]
  by_cases hmem : lock ∈ held
  · have hused := h s hs lock hmem
    cases hlast : lastEffect (onLock lock) u with
    | none => rwa [Option.none_or]
    | some action => exact Option.some_ne_none action
  · cases op with
    | useLock action own erase =>
      cases action with
      | acquire =>
        rcases Finset.mem_insert.1 hlock with rfl | hin
        · cases hu
          rw [lastEffect_single, onLock, if_pos rfl]
          exact Option.some_ne_none _
        · exact absurd hin hmem
      | acquireGreaterEqual => exact absurd hlock hmem
      | release => exact absurd (Finset.mem_of_mem_erase hlock) hmem
    | other => exact absurd hlock hmem
    | conditional thenBlock elseBlock => exact absurd hlock hmem
    | loop trips body => exact absurd hlock hmem

theorem snoc_eq_append {α : Type*} {t s u : List α} {a : α} (h : t ++ [a] = s ++ u) (hu : u ≠ []) :
    ∃ u', u = u' ++ [a] ∧ t = s ++ u' := by
  obtain ⟨u', b, rfl⟩ := (List.eq_nil_or_concat u).resolve_left hu
  rw [List.concat_eq_append, ← List.append_assoc] at h
  obtain ⟨hinit, hlast⟩ := List.append_inj' h rfl
  rw [List.cons.injEq] at hlast
  exact ⟨u', by rw [List.concat_eq_append, hlast.1], hinit⟩

/-! ## Erased acquires are of held locks -/

mutual

theorem Op.held_of_guarded (op : Op) {before : Prog Use} {held : Finset ℕ} {t0 t : List Use}
    {lock : ℕ} (hcovers : Covers before held) (hguarded : (op.sweep held).MarkGuarded before)
    (h0 : before.Completes t0) (ht : (op.sweep held).prog.Reaches (t ++ [erasedAcquire lock])) :
    Held lock (t0 ++ t) := by
  cases op with
  | useLock action own erase =>
    cases action with
    | acquire =>
      rcases ht with ht | ht
      · simp at ht
      · have hnil : t = [] := by
          have hlen := congrArg List.length ht
          simpa using hlen
        subst hnil
        simp only [List.nil_append, erasedAcquire, List.cons.injEq, Use.mk.injEq, and_true,
          true_and] at ht
        obtain ⟨rfl, hmark⟩ := ht
        rw [Op.sweep, ← hmark] at hguarded
        rw [List.append_nil]
        obtain ⟨action, hlast⟩ := Option.ne_none_iff_exists'.1
          (hcovers t0 h0 lock (of_decide_eq_true hmark.symm))
        refine ⟨action, hlast, ?_⟩
        rintro rfl
        have hmay := (before.mayEnd_iff (onLock lock) (some .release)).2 ⟨t0, h0, hlast⟩
        rw [Op.MarkGuarded, hmay] at hguarded
        cases hguarded
    | acquireGreaterEqual =>
      rcases ht with ht | ht
      · simp at ht
      · have hlast := congrArg List.getLast? ht
        simp [erasedAcquire] at hlast
    | release =>
      rcases ht with ht | ht
      · simp at ht
      · have hlast := congrArg List.getLast? ht
        simp [erasedAcquire] at hlast
  | other => simp [Op.sweep, Op.prog, Prog.Reaches] at ht
  | conditional thenBlock elseBlock =>
    rw [Op.sweep, Op.MarkGuarded] at hguarded
    rcases ht with ht | ht
    · exact (thenBlock.held_of_guarded covers_empty hguarded.1 completes_nil ht).append
    · exact (elseBlock.held_of_guarded covers_empty hguarded.2 completes_nil ht).append
  | loop trips body =>
    rw [Op.sweep, Op.MarkGuarded] at hguarded
    rcases ht with ht | ⟨turns, s, hstarts, hturns, hs, ht⟩
    · simp at ht
    · have hrun : Starts trips = true := by
        cases trips with
        | times n => exact decide_eq_true (Nat.ne_zero_of_lt hstarts)
        | any => rfl
        | forever => rfl
      obtain ⟨earlier, u, hu, rfl⟩ := Prog.exists_part_of_snoc
        (fun u hu => (hturns u hu).reaches) hs ht
      rw [← List.append_assoc]
      exact (body.held_of_guarded covers_empty (hguarded hrun) completes_nil hu).append

theorem Block.held_of_guarded (block : Block) {before : Prog Use} {held : Finset ℕ}
    {t0 t : List Use} {lock : ℕ} (hcovers : Covers before held)
    (hguarded : (block.sweepFrom held).MarkGuardedFrom before) (h0 : before.Completes t0)
    (ht : (block.sweepFrom held).prog.Reaches (t ++ [erasedAcquire lock])) :
    Held lock (t0 ++ t) := by
  cases block with
  | nil => simp [Block.sweepFrom, Block.prog, Prog.Reaches] at ht
  | cons op rest =>
    rw [Block.sweepFrom, Block.MarkGuardedFrom] at hguarded
    have hop := hguarded.1 ((before.mayComplete_iff).2 ⟨t0, h0⟩)
    rcases ht with ht | ⟨s, u, hs, hu, ht⟩
    · exact op.held_of_guarded hcovers hop h0 ht
    · by_cases hnil : u = []
      · subst hnil
        rw [List.append_nil] at ht
        exact op.held_of_guarded hcovers hop h0 (ht ▸ hs.reaches)
      · obtain ⟨u', rfl, rfl⟩ := snoc_eq_append ht hnil
        rw [← List.append_assoc]
        exact rest.held_of_guarded (hcovers.after op) hguarded.2 ⟨t0, s, h0, hs, rfl⟩ hu

end

/-! ## Elsewhere one is of a released lock -/

theorem Block.markGuardedFrom_of_not_mayComplete (block : Block) {before : Prog Use}
    (h : before.mayComplete = false) : block.MarkGuardedFrom before := by
  cases block with
  | nil => trivial
  | cons op rest =>
    refine ⟨fun hmay => ?_, rest.markGuardedFrom_of_not_mayComplete ?_⟩
    · rw [h] at hmay
      cases hmay
    · rw [Prog.mayComplete, h]
      rfl

mutual

theorem Op.exists_released (op : Op) {before : Prog Use} (hmay : before.mayComplete = true)
    (hnot : ¬ op.MarkGuarded before) : ∃ t0 t lock, before.Completes t0 ∧
      op.prog.Reaches (t ++ [erasedAcquire lock]) ∧
      lastEffect (onLock lock) (t0 ++ t) = some .release := by
  obtain ⟨t0, h0⟩ := before.mayComplete_iff.1 hmay
  cases op with
  | useLock action lock erase =>
    cases action with
    | acquire =>
      cases erase with
      | true =>
        rw [Op.MarkGuarded, Bool.not_eq_false, Prog.mayEnd_iff] at hnot
        obtain ⟨t0, h0, hlast⟩ := hnot
        exact ⟨t0, [], lock, h0, Or.inr rfl, by rwa [List.append_nil]⟩
      | false => exact absurd trivial hnot
    | acquireGreaterEqual => exact absurd trivial hnot
    | release => exact absurd trivial hnot
  | other => exact absurd trivial hnot
  | conditional thenBlock elseBlock =>
    rw [Op.MarkGuarded, not_and_or] at hnot
    rcases hnot with hnot | hnot
    · obtain ⟨s, t, lock, hs, ht, hlast⟩ := thenBlock.exists_released rfl hnot
      cases hs
      exact ⟨t0, t, lock, h0, Or.inl ht, lastEffect_append_some hlast⟩
    · obtain ⟨s, t, lock, hs, ht, hlast⟩ := elseBlock.exists_released rfl hnot
      cases hs
      exact ⟨t0, t, lock, h0, Or.inr ht, lastEffect_append_some hlast⟩
  | loop trips body =>
    rw [Op.MarkGuarded, Classical.not_imp] at hnot
    obtain ⟨hstarts, hnot⟩ := hnot
    obtain ⟨s, t, lock, hs, ht, hlast⟩ := body.exists_released rfl hnot
    cases hs
    have hfirst : trips.Starts 0 := by
      cases trips with
      | times n => exact Nat.pos_of_ne_zero (of_decide_eq_true hstarts)
      | any => trivial
      | forever => trivial
    exact ⟨t0, t, lock, h0, Or.inr ⟨[], _, hfirst, List.forall_mem_nil _, ht, rfl⟩,
      lastEffect_append_some hlast⟩

theorem Block.exists_released (block : Block) {before : Prog Use}
    (hmay : before.mayComplete = true) (hnot : ¬ block.MarkGuardedFrom before) :
    ∃ t0 t lock, before.Completes t0 ∧ block.prog.Reaches (t ++ [erasedAcquire lock]) ∧
      lastEffect (onLock lock) (t0 ++ t) = some .release := by
  cases block with
  | nil => exact absurd trivial hnot
  | cons op rest =>
    rw [Block.MarkGuardedFrom, not_and_or] at hnot
    rcases hnot with hnot | hnot
    · rw [Classical.not_imp] at hnot
      obtain ⟨t0, t, lock, h0, ht, hlast⟩ := op.exists_released hmay hnot.2
      exact ⟨t0, t, lock, h0, Or.inl ht, hlast⟩
    · by_cases hop : op.prog.mayComplete = true
      · obtain ⟨t0, t, lock, ⟨s, u, hs, hu, rfl⟩, ht, hlast⟩ := rest.exists_released
          (by rw [Prog.mayComplete, hmay, hop]; rfl) hnot
        rw [List.append_assoc] at hlast
        exact ⟨s, u ++ t, lock, hs, Or.inr ⟨u, _, hu, ht, List.append_assoc u t _⟩, hlast⟩
      · refine absurd (rest.markGuardedFrom_of_not_mayComplete ?_) hnot
        rw [Prog.mayComplete, Bool.and_eq_false_iff]
        exact Or.inr (Bool.not_eq_true _ ▸ hop)

end

/-- **The acquires that are erased are of held locks**, in every run as far as it comes, exactly
where nothing before one in its block can leave its lock released. -/
theorem sweep_held_iff (core : Block) :
    (∀ lock t, core.sweep.prog.Reaches (t ++ [erasedAcquire lock]) → Held lock t) ↔
      core.Guarded := by
  rw [← core.sweep_markGuarded_iff]
  constructor
  · intro hheld
    by_contra hnot
    obtain ⟨s, t, lock, hs, ht, hlast⟩ := core.sweep.exists_released rfl hnot
    cases hs
    obtain ⟨action, hlast', hne⟩ := hheld lock t ht
    rw [List.nil_append, hlast', Option.some_inj] at hlast
    exact hne hlast
  · intro hguarded lock t ht
    exact core.held_of_guarded covers_empty hguarded completes_nil ht

/-- An acquire, a branch that releases, and the acquire again. -/
def releasedBetween : Block :=
  .cons (.useLock .acquire 0 false) (.cons
    (.conditional (.cons (.useLock .release 0 false) .nil) .nil)
    (.cons (.useLock .acquire 0 false) .nil))

/-- It is erased, and a run comes to it after the release. -/
theorem releasedBetween_not_held : ∃ t,
    releasedBetween.sweep.prog.Reaches (t ++ [erasedAcquire 0]) ∧ ¬ Held 0 t := by
  refine ⟨[⟨.acquire, 0, false⟩, ⟨.release, 0, false⟩], ?_, ?_⟩
  · refine Or.inr ⟨[⟨.acquire, 0, false⟩], _, rfl, Or.inr ⟨[⟨.release, 0, false⟩], _,
      Or.inl ⟨_, [], rfl, rfl, rfl⟩, Or.inl (Or.inr rfl), rfl⟩, rfl⟩
  · rintro ⟨action, hlast, hne⟩
    rw [show lastEffect (onLock 0) [⟨.acquire, 0, false⟩, ⟨.release, 0, false⟩] = some .release
      from rfl, Option.some_inj] at hlast
    exact hne hlast.symm

end MlirAie.Fifo.Unroll
