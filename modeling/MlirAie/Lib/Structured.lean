import Mathlib

/-!
# What structured programs can use up

Programs of actions, sequences, branches and loops, where which branch runs and how often a loop
turns may be open. Actions change a count, and fail where it is too small for them; a larger count
never makes things worse. Then the least count decides whether some run fails.

* `Completes`, `Reaches`: the actions of a whole run, and of a run as far as it has come;
* `least`: the least count a program leaves;
* **`exists_fails_iff`**: some run fails exactly if the least count does.
-/

namespace MlirAie.Lib

/-- How often a loop turns: a number of times, any number of times, or without end. -/
inductive Trips where
  | times (n : ℕ)
  | any
  | forever
  deriving DecidableEq

def Trips.Allows : Trips → ℕ → Prop
  | times n, k => k = n
  | any, _ => True
  | forever, _ => False

/-- The loop may turn again after that many turns. -/
def Trips.Starts : Trips → ℕ → Prop
  | times n, k => k < n
  | any, _ => True
  | forever, _ => True

inductive Prog (α : Type*) where
  | skip
  | act (a : α)
  | seq (p q : Prog α)
  | branch (p q : Prog α)
  | loop (trips : Trips) (body : Prog α)

namespace Prog

variable {α : Type*}

/-! ## Runs -/

/-- The actions of a run that comes to its end. -/
def Completes : Prog α → List α → Prop
  | skip, t => t = []
  | act a, t => t = [a]
  | seq p q, t => ∃ s u, p.Completes s ∧ q.Completes u ∧ t = s ++ u
  | branch p q, t => p.Completes t ∨ q.Completes t
  | loop trips body, t => ∃ turns : List (List α), trips.Allows turns.length ∧
      (∀ s ∈ turns, body.Completes s) ∧ t = turns.flatten

/-- The actions of a run as far as it has come. -/
def Reaches : Prog α → List α → Prop
  | skip, t => t = []
  | act a, t => t = [] ∨ t = [a]
  | seq p q, t => p.Reaches t ∨ ∃ s u, p.Completes s ∧ q.Reaches u ∧ t = s ++ u
  | branch p q, t => p.Reaches t ∨ q.Reaches t
  | loop trips body, t => t = [] ∨ ∃ (turns : List (List α)) (s : List α),
      trips.Starts turns.length ∧ (∀ s ∈ turns, body.Completes s) ∧ body.Reaches s ∧
        t = turns.flatten ++ s

end Prog

/-! ## Counts -/

/-- What a program leaves at least: it fails, leaves a count, or does not end. -/
inductive Least where
  | fails
  | leaves (n : ℕ)
  | never
  deriving DecidableEq

namespace Least

def andThen (x : Least) (f : ℕ → Least) : Least :=
  match x with
  | fails => fails
  | leaves n => f n
  | never => never

def worse : Least → Least → Least
  | fails, _ => fails
  | _, fails => fails
  | leaves m, leaves n => leaves (min m n)
  | leaves m, never => leaves m
  | never, y => y

/-- A run that fails, or leaves a count, does no worse. -/
def Below : Least → Option ℕ → Prop
  | fails, _ => True
  | leaves n, some m => n ≤ m
  | leaves _, none => False
  | never, _ => False

theorem Below.worse_left {x : Least} {r : Option ℕ} (h : x.Below r) (y : Least) :
    (x.worse y).Below r := by
  cases x with
  | fails => trivial
  | never => cases h
  | leaves n =>
    cases r with
    | none => cases h
    | some m =>
      cases y with
      | fails => trivial
      | leaves k => exact (min_le_left n k).trans h
      | never => exact h

theorem worse_comm (x y : Least) : x.worse y = y.worse x := by
  cases x <;> cases y <;> simp only [worse, min_comm]

theorem Below.worse_right {y : Least} {r : Option ℕ} (h : y.Below r) (x : Least) :
    (x.worse y).Below r := by
  rw [worse_comm]
  exact h.worse_left x

theorem worse_eq_fails {x y : Least} : x.worse y = fails ↔ x = fails ∨ y = fails := by
  cases x <;> cases y <;> simp [worse]

theorem worse_eq_leaves {x y : Least} {n : ℕ} (h : x.worse y = leaves n) :
    x = leaves n ∨ y = leaves n := by
  cases x <;> cases y <;> simp only [worse, reduceCtorEq, leaves.injEq] at h ⊢
  · omega
  · exact .inl h
  · exact .inr h

def turns (f : ℕ → Least) : ℕ → ℕ → Least
  | 0, h => leaves h
  | n + 1, h => (f h).andThen (turns f n)

/-- Any number of turns: as long as each leaves less. -/
def descend (f : ℕ → Least) : ℕ → ℕ → Least
  | 0, h => leaves h
  | fuel + 1, h =>
    match f h with
    | fails => fails
    | leaves m => if m < h then descend f fuel m else leaves h
    | never => leaves h

def loop (f : ℕ → Least) : Trips → ℕ → Least
  | .times n, h => turns f n h
  | .any, h => descend f (h + 1) h
  | .forever, h =>
    match descend f (h + 1) h with
    | fails => fails
    | _ => never

/-- Below the count that any number of turns leaves, no turn leads. -/
theorem descend_spec (f : ℕ → Least) {fuel h : ℕ} (hfuel : h < fuel) :
    descend f fuel h = fails ∨ ∃ n ≤ h, descend f fuel h = leaves n ∧
      (f n = never ∨ ∃ m ≥ n, f n = leaves m) := by
  induction fuel generalizing h with
  | zero => cases hfuel
  | succ fuel ih =>
    cases hf : f h with
    | fails => exact .inl (by rw [descend, hf])
    | never => exact .inr ⟨h, le_rfl, by rw [descend, hf], .inl hf⟩
    | leaves m =>
      have hstep : descend f (fuel + 1) h = if m < h then descend f fuel m else leaves h := by
        rw [descend, hf]
      rw [hstep]
      split_ifs with hlt
      · rcases ih (h := m) (by omega) with hfails | ⟨n, hn, hleaves, hkeep⟩
        · exact .inl hfails
        · exact .inr ⟨n, hn.trans hlt.le, hleaves, hkeep⟩
      · exact .inr ⟨h, le_rfl, rfl, .inr ⟨m, not_lt.1 hlt, hf⟩⟩

theorem turns_eq_fails {f : ℕ → Least} (hless : ∀ h, f h = fails ∨ ∃ m < h, f h = leaves m)
    {n h : ℕ} (hn : h < n) : turns f n h = fails := by
  induction n generalizing h with
  | zero => cases hn
  | succ n ih =>
    rw [turns]
    rcases hless h with hfails | ⟨m, hm, hleaves⟩
    · rw [hfails]
      rfl
    · rw [hleaves]
      exact ih (by omega)

theorem descend_eq_fails {f : ℕ → Least} (hless : ∀ h, f h = fails ∨ ∃ m < h, f h = leaves m)
    (h : ℕ) : descend f (h + 1) h = fails := by
  rcases descend_spec f (Nat.lt_succ_self h) with hfails | ⟨n, -, -, hkeep⟩
  · exact hfails
  · rcases hless n with hn | ⟨m, hm, hn⟩
    · rcases hkeep with hnever | ⟨k, -, hk⟩
      · cases hn.symm.trans hnever
      · cases hn.symm.trans hk
    · rcases hkeep with hnever | ⟨k, hk, hleaves⟩
      · cases hn.symm.trans hnever
      · cases hn.symm.trans hleaves
        omega

end Least

section Runs

variable {α : Type*} (step : α → ℕ → Option ℕ)

def runActions (h : ℕ) (t : List α) : Option ℕ := t.foldlM (fun h a => step a h) h

/-- A larger count never makes things worse. -/
def Monotonic : Prop :=
  ∀ (a : α) (h h' m : ℕ), h ≤ h' → step a h = some m → ∃ m' ≥ m, step a h' = some m'

def Prog.least : Prog α → ℕ → Least
  | skip, h => .leaves h
  | act a, h =>
    match step a h with
    | none => .fails
    | some m => .leaves m
  | seq p q, h => (p.least h).andThen q.least
  | branch p q, h => (p.least h).worse (q.least h)
  | loop trips body, h => Least.loop body.least trips h

attribute [local simp] Prog.least

variable {step}

theorem runActions_nil (h : ℕ) : runActions step h [] = some h := rfl

theorem runActions_append (h : ℕ) (s t : List α) :
    runActions step h (s ++ t) = (runActions step h s).bind fun m => runActions step m t :=
  List.foldlM_append

theorem runActions_single (h : ℕ) (a : α) : runActions step h [a] = step a h := by
  rw [runActions, List.foldlM_cons]
  cases step a h <;> rfl

theorem runActions_cons (h : ℕ) (a : α) (t : List α) :
    runActions step h (a :: t) = (step a h).bind fun m => runActions step m t := by
  rw [← List.singleton_append, runActions_append, runActions_single]

/-! ## Turns of a loop -/

section Turns

variable {f : ℕ → Least} {P R : List α → Prop} {turns : List (List α)} {s : List α} {h h' : ℕ}

theorem turns_below
    (hP : ∀ t h h', P t → h ≤ h' → (f h).Below (runActions step h' t))
    (hturns : ∀ s ∈ turns, P s) (hle : h ≤ h') :
    (Least.turns f turns.length h).Below (runActions step h' turns.flatten) := by
  induction turns generalizing h h' with
  | nil => exact hle
  | cons s turns ih =>
    have hs := hP s h h' (hturns s List.mem_cons_self) hle
    rw [List.length_cons, Least.turns, List.flatten_cons, runActions_append]
    cases hf : f h with
    | fails => trivial
    | never => rw [hf] at hs; cases hs
    | leaves m =>
      rw [hf] at hs
      cases hrun : runActions step h' s with
      | none => rw [hrun] at hs; cases hs
      | some m' =>
        rw [hrun] at hs
        exact ih (fun t ht => hturns t (List.mem_cons_of_mem s ht)) hs

theorem turns_fails
    (hP : ∀ t h h', P t → h ≤ h' → (f h).Below (runActions step h' t))
    (hR : ∀ t h h', R t → h ≤ h' → runActions step h' t = none → f h = .fails)
    {n : ℕ} (hn : turns.length < n) (hturns : ∀ s ∈ turns, P s) (hs : R s) (hle : h ≤ h')
    (hrun : runActions step h' (turns.flatten ++ s) = none) : Least.turns f n h = .fails := by
  induction turns generalizing n h h' with
  | nil =>
    obtain ⟨n, rfl⟩ := Nat.exists_eq_succ_of_ne_zero (Nat.ne_of_gt hn)
    rw [Least.turns, hR s h h' hs hle hrun]
    rfl
  | cons t turns ih =>
    obtain ⟨n, rfl⟩ := Nat.exists_eq_succ_of_ne_zero (Nat.ne_of_gt (Nat.zero_lt_of_lt hn))
    have ht := hP t h h' (hturns t List.mem_cons_self) hle
    rw [List.flatten_cons, List.append_assoc, runActions_append] at hrun
    rw [Least.turns]
    cases hf : f h with
    | fails => rfl
    | never => rw [hf] at ht; cases ht
    | leaves m =>
      rw [hf] at ht
      cases hone : runActions step h' t with
      | none => rw [hone] at ht; cases ht
      | some m' =>
        rw [hone] at ht hrun
        exact ih (Nat.lt_of_succ_lt_succ hn) (fun u hu => hturns u (List.mem_cons_of_mem t hu)) ht
          hrun

/-- From a count that no turn leads below, no number of turns does. -/
theorem turns_stay
    (hP : ∀ t h h', P t → h ≤ h' → (f h).Below (runActions step h' t))
    (hkeep : f h = .never ∨ ∃ m ≥ h, f h = .leaves m) (hturns : ∀ s ∈ turns, P s) (hle : h ≤ h') :
    ∃ m ≥ h, runActions step h' turns.flatten = some m := by
  induction turns generalizing h' with
  | nil => exact ⟨h', hle, rfl⟩
  | cons s turns ih =>
    have hs := hP s h h' (hturns s List.mem_cons_self) hle
    rw [List.flatten_cons, runActions_append]
    rcases hkeep with hf | ⟨m, hm, hf⟩
    · rw [hf] at hs
      cases hs
    · rw [hf] at hs
      cases hrun : runActions step h' s with
      | none => rw [hrun] at hs; cases hs
      | some m' =>
        rw [hrun] at hs
        exact ih (fun t ht => hturns t (List.mem_cons_of_mem s ht)) (hm.trans hs)

theorem exists_turns_fails
    (hR : ∀ h, f h = .fails → ∃ t, R t ∧ runActions step h t = none)
    (hP : ∀ h m, f h = .leaves m → ∃ t, P t ∧ runActions step h t = some m)
    {n : ℕ} (hfails : Least.turns f n h = .fails) :
    ∃ (turns : List (List α)) (s : List α), turns.length < n ∧ (∀ s ∈ turns, P s) ∧ R s ∧
      runActions step h (turns.flatten ++ s) = none := by
  induction n generalizing h with
  | zero => cases hfails
  | succ n ih =>
    rw [Least.turns] at hfails
    cases hf : f h with
    | fails =>
      obtain ⟨t, ht, hrun⟩ := hR h hf
      exact ⟨[], t, Nat.succ_pos n, by simp, ht, hrun⟩
    | never => rw [hf] at hfails; cases hfails
    | leaves m =>
      rw [hf] at hfails
      obtain ⟨t, ht, hrun⟩ := hP h m hf
      obtain ⟨turns, s, hn, hturns, hs, hnone⟩ := ih hfails
      refine ⟨t :: turns, s, Nat.succ_lt_succ hn, List.forall_mem_cons.2 ⟨ht, hturns⟩, hs, ?_⟩
      rw [List.flatten_cons, List.append_assoc, runActions_append, hrun]
      exact hnone

theorem exists_turns_leaves
    (hP : ∀ h m, f h = .leaves m → ∃ t, P t ∧ runActions step h t = some m)
    {n m : ℕ} (hleaves : Least.turns f n h = .leaves m) :
    ∃ turns : List (List α), turns.length = n ∧ (∀ s ∈ turns, P s) ∧
      runActions step h turns.flatten = some m := by
  induction n generalizing h with
  | zero =>
    cases hleaves
    exact ⟨[], rfl, by simp, rfl⟩
  | succ n ih =>
    rw [Least.turns] at hleaves
    cases hf : f h with
    | fails => rw [hf] at hleaves; cases hleaves
    | never => rw [hf] at hleaves; cases hleaves
    | leaves k =>
      rw [hf] at hleaves
      obtain ⟨t, ht, hrun⟩ := hP h k hf
      obtain ⟨turns, rfl, hturns, hsome⟩ := ih hleaves
      refine ⟨t :: turns, rfl, List.forall_mem_cons.2 ⟨ht, hturns⟩, ?_⟩
      rw [List.flatten_cons, runActions_append, hrun]
      exact hsome

/-- Any number of turns that leave less are as many turns. -/
theorem exists_descend (f : ℕ → Least) (fuel h : ℕ) :
    (∃ n, Least.descend f fuel h = Least.turns f n h) := by
  induction fuel generalizing h with
  | zero => exact ⟨0, rfl⟩
  | succ fuel ih =>
    rw [Least.descend]
    cases hf : f h with
    | fails => exact ⟨1, by rw [Least.turns, hf]; rfl⟩
    | never => exact ⟨0, rfl⟩
    | leaves m =>
      simp only
      split_ifs with hlt
      · obtain ⟨n, hn⟩ := ih m
        exact ⟨n + 1, by rw [hn, Least.turns, hf]; rfl⟩
      · exact ⟨0, rfl⟩

end Turns

/-! ## The least count decides -/

/-- What the least count says about every run: one that ends does no worse, and where one fails it
does. -/
structure Prog.Sound (step : α → ℕ → Option ℕ) (p : Prog α) : Prop where
  completes : ∀ t h h', p.Completes t → h ≤ h' → (p.least step h).Below (runActions step h' t)
  reaches : ∀ t h h', p.Reaches t → h ≤ h' → runActions step h' t = none →
    p.least step h = .fails

/-- What the least count is found by: a run that ends with it, or one that fails. -/
structure Prog.Exact (step : α → ℕ → Option ℕ) (p : Prog α) : Prop where
  leaves : ∀ h m, p.least step h = .leaves m → ∃ t, p.Completes t ∧ runActions step h t = some m
  fails : ∀ h, p.least step h = .fails → ∃ t, p.Reaches t ∧ runActions step h t = none

namespace Prog

theorem Sound.act (hstep : Monotonic step) (a : α) : (Prog.act a).Sound step where
  completes := by
    rintro t h h' rfl hle
    rw [runActions_single, least]
    cases ha : step a h with
    | none => trivial
    | some m =>
      obtain ⟨m', hm, hm'⟩ := hstep a h h' m hle ha
      rw [hm']
      exact hm
  reaches := by
    rintro t h h' (rfl | rfl) hle hrun
    · cases hrun
    · rw [runActions_single] at hrun
      rw [least]
      cases ha : step a h with
      | none => rfl
      | some m =>
        obtain ⟨m', -, hm'⟩ := hstep a h h' m hle ha
        cases hrun.symm.trans hm'

theorem Sound.seq {p q : Prog α} (hp : p.Sound step) (hq : q.Sound step) :
    (p.seq q).Sound step where
  completes := by
    rintro t h h' ⟨s, u, hs, hu, rfl⟩ hle
    have hfirst := hp.completes s h h' hs hle
    rw [runActions_append, least]
    cases hf : p.least step h with
    | fails => trivial
    | never => rw [hf] at hfirst; cases hfirst
    | leaves m =>
      rw [hf] at hfirst
      cases hrun : runActions step h' s with
      | none => rw [hrun] at hfirst; cases hfirst
      | some m' =>
        rw [hrun] at hfirst
        exact hq.completes u m m' hu hfirst
  reaches := by
    rintro t h h' (ht | ⟨s, u, hs, hu, rfl⟩) hle hrun
    · rw [least, hp.reaches t h h' ht hle hrun]
      rfl
    · have hfirst := hp.completes s h h' hs hle
      rw [runActions_append] at hrun
      rw [least]
      cases hf : p.least step h with
      | fails => rfl
      | never => rw [hf] at hfirst; cases hfirst
      | leaves m =>
        rw [hf] at hfirst
        cases hone : runActions step h' s with
        | none => rw [hone] at hfirst; cases hfirst
        | some m' =>
          rw [hone] at hfirst hrun
          exact hq.reaches u m m' hu hfirst hrun

theorem Sound.branch {p q : Prog α} (hp : p.Sound step) (hq : q.Sound step) :
    (p.branch q).Sound step where
  completes := by
    rintro t h h' (ht | ht) hle
    · exact (hp.completes t h h' ht hle).worse_left _
    · exact (hq.completes t h h' ht hle).worse_right _
  reaches := by
    rintro t h h' (ht | ht) hle hrun
    · exact Least.worse_eq_fails.2 (.inl (hp.reaches t h h' ht hle hrun))
    · exact Least.worse_eq_fails.2 (.inr (hq.reaches t h h' ht hle hrun))

/-- Where any number of turns does not fail, no run of turns does. -/
theorem Sound.descend {body : Prog α} (hbody : body.Sound step) {h h' : ℕ} (hle : h ≤ h') :
    Least.descend (body.least step) (h + 1) h = .fails ∨
      ∃ n, Least.descend (body.least step) (h + 1) h = .leaves n ∧
        ∀ turns : List (List α), (∀ s ∈ turns, body.Completes s) →
          (∃ m ≥ n, runActions step h' turns.flatten = some m) ∧
            ∀ s, body.Reaches s → runActions step h' (turns.flatten ++ s) ≠ none := by
  rcases Least.descend_spec (body.least step) (Nat.lt_succ_self h) with
    hfails | ⟨n, hn, hleaves, hkeep⟩
  · exact .inl hfails
  · refine .inr ⟨n, hleaves, fun turns hturns => ?_⟩
    obtain ⟨m, hm, hrun⟩ := turns_stay hbody.completes hkeep hturns (hn.trans hle)
    refine ⟨⟨m, hm, hrun⟩, fun s hs hnone => ?_⟩
    rw [runActions_append, hrun] at hnone
    have hfails := hbody.reaches s n m hs hm hnone
    rcases hkeep with hnever | ⟨k, -, hk⟩
    · cases hfails.symm.trans hnever
    · cases hfails.symm.trans hk

theorem Sound.loop {body : Prog α} (hbody : body.Sound step) (trips : Trips) :
    (Prog.loop trips body).Sound step where
  completes := by
    rintro t h h' ⟨turns, hallows, hturns, rfl⟩ hle
    rw [least]
    cases trips with
    | times n =>
      cases hallows
      exact turns_below hbody.completes hturns hle
    | any =>
      rw [Least.loop]
      rcases hbody.descend hle with hfails | ⟨n, hleaves, hstay⟩
      · rw [hfails]
        trivial
      · obtain ⟨⟨m, hm, hrun⟩, -⟩ := hstay turns hturns
        rw [hleaves, hrun]
        exact hm
    | forever => cases hallows
  reaches := by
    rintro t h h' (rfl | ⟨turns, s, hstarts, hturns, hs, rfl⟩) hle hrun
    · cases hrun
    · rw [least]
      cases trips with
      | times n => exact turns_fails hbody.completes hbody.reaches hstarts hturns hs hle hrun
      | any =>
        rw [Least.loop]
        rcases hbody.descend hle with hfails | ⟨n, -, hstay⟩
        · exact hfails
        · exact absurd hrun ((hstay turns hturns).2 s hs)
      | forever =>
        rw [Least.loop]
        rcases hbody.descend hle with hfails | ⟨n, -, hstay⟩
        · rw [hfails]
        · exact absurd hrun ((hstay turns hturns).2 s hs)

theorem sound (hstep : Monotonic step) (p : Prog α) : p.Sound step := by
  induction p with
  | skip =>
    refine ⟨?_, ?_⟩
    · rintro t h h' rfl hle
      exact hle
    · rintro t h h' rfl hle hrun
      cases hrun
  | act a => exact .act hstep a
  | seq p q hp hq => exact hp.seq hq
  | branch p q hp hq => exact hp.branch hq
  | loop trips body hbody => exact hbody.loop trips

theorem Exact.act (a : α) : (Prog.act a).Exact step where
  leaves := by
    intro h m hleaves
    rw [least] at hleaves
    refine ⟨[a], rfl, ?_⟩
    rw [runActions_single]
    cases ha : step a h with
    | none => rw [ha] at hleaves; cases hleaves
    | some m' => rw [ha] at hleaves; cases hleaves; rfl
  fails := by
    intro h hfails
    rw [least] at hfails
    refine ⟨[a], .inr rfl, ?_⟩
    rw [runActions_single]
    cases ha : step a h with
    | none => rfl
    | some m' => rw [ha] at hfails; cases hfails

theorem Exact.seq {p q : Prog α} (hp : p.Exact step) (hq : q.Exact step) :
    (p.seq q).Exact step where
  leaves := by
    intro h m hleaves
    rw [least] at hleaves
    cases hf : p.least step h with
    | fails => rw [hf] at hleaves; cases hleaves
    | never => rw [hf] at hleaves; cases hleaves
    | leaves k =>
      rw [hf] at hleaves
      obtain ⟨s, hs, hrun⟩ := hp.leaves h k hf
      obtain ⟨u, hu, hrun'⟩ := hq.leaves k m hleaves
      refine ⟨s ++ u, ⟨s, u, hs, hu, rfl⟩, ?_⟩
      rw [runActions_append, hrun]
      exact hrun'
  fails := by
    intro h hfails
    rw [least] at hfails
    cases hf : p.least step h with
    | fails =>
      obtain ⟨t, ht, hrun⟩ := hp.fails h hf
      exact ⟨t, .inl ht, hrun⟩
    | never => rw [hf] at hfails; cases hfails
    | leaves k =>
      rw [hf] at hfails
      obtain ⟨s, hs, hrun⟩ := hp.leaves h k hf
      obtain ⟨u, hu, hrun'⟩ := hq.fails k hfails
      refine ⟨s ++ u, .inr ⟨s, u, hs, hu, rfl⟩, ?_⟩
      rw [runActions_append, hrun]
      exact hrun'

theorem Exact.branch {p q : Prog α} (hp : p.Exact step) (hq : q.Exact step) :
    (p.branch q).Exact step where
  leaves := by
    intro h m hleaves
    rcases Least.worse_eq_leaves hleaves with hleaves | hleaves
    · obtain ⟨t, ht, hrun⟩ := hp.leaves h m hleaves
      exact ⟨t, .inl ht, hrun⟩
    · obtain ⟨t, ht, hrun⟩ := hq.leaves h m hleaves
      exact ⟨t, .inr ht, hrun⟩
  fails := by
    intro h hfails
    rcases Least.worse_eq_fails.1 hfails with hfails | hfails
    · obtain ⟨t, ht, hrun⟩ := hp.fails h hfails
      exact ⟨t, .inl ht, hrun⟩
    · obtain ⟨t, ht, hrun⟩ := hq.fails h hfails
      exact ⟨t, .inr ht, hrun⟩

theorem Exact.loop {body : Prog α} (hbody : body.Exact step) (trips : Trips) :
    (Prog.loop trips body).Exact step where
  leaves := by
    intro h m hleaves
    rw [least] at hleaves
    cases trips with
    | times n =>
      obtain ⟨turns, hn, hturns, hrun⟩ := exists_turns_leaves hbody.leaves hleaves
      exact ⟨turns.flatten, ⟨turns, hn, hturns, rfl⟩, hrun⟩
    | any =>
      obtain ⟨n, hn⟩ := exists_descend (body.least step) (h + 1) h
      rw [Least.loop, hn] at hleaves
      obtain ⟨turns, -, hturns, hrun⟩ := exists_turns_leaves hbody.leaves hleaves
      exact ⟨turns.flatten, ⟨turns, trivial, hturns, rfl⟩, hrun⟩
    | forever =>
      rw [Least.loop] at hleaves
      split at hleaves <;> cases hleaves
  fails := by
    intro h hfails
    rw [least] at hfails
    obtain ⟨n, hn⟩ := exists_descend (body.least step) (h + 1) h
    have hdescend : Least.turns (body.least step) n h = .fails → ∃ (turns : List (List α))
        (s : List α), (∀ s ∈ turns, body.Completes s) ∧ body.Reaches s ∧
          runActions step h (turns.flatten ++ s) = none := by
      intro hfails
      obtain ⟨turns, s, -, hturns, hs, hrun⟩ :=
        exists_turns_fails hbody.fails hbody.leaves hfails
      exact ⟨turns, s, hturns, hs, hrun⟩
    cases trips with
    | times n =>
      obtain ⟨turns, s, hlt, hturns, hs, hrun⟩ :=
        exists_turns_fails hbody.fails hbody.leaves hfails
      exact ⟨_, .inr ⟨turns, s, hlt, hturns, hs, rfl⟩, hrun⟩
    | any =>
      obtain ⟨turns, s, hturns, hs, hrun⟩ := hdescend (hn ▸ hfails)
      exact ⟨_, .inr ⟨turns, s, trivial, hturns, hs, rfl⟩, hrun⟩
    | forever =>
      have hdescends : Least.descend (body.least step) (h + 1) h = .fails := by
        rw [Least.loop] at hfails
        split at hfails
        · assumption
        · cases hfails
      obtain ⟨turns, s, hturns, hs, hrun⟩ := hdescend (hn ▸ hdescends)
      exact ⟨_, .inr ⟨turns, s, trivial, hturns, hs, rfl⟩, hrun⟩

theorem exact (p : Prog α) : p.Exact step := by
  induction p with
  | skip =>
    refine ⟨?_, ?_⟩
    · intro h m hleaves
      cases hleaves
      exact ⟨[], rfl, rfl⟩
    · intro h hfails
      cases hfails
  | act a => exact .act a
  | seq p q hp hq => exact hp.seq hq
  | branch p q hp hq => exact hp.branch hq
  | loop trips body hbody => exact hbody.loop trips

/-- **Some run fails** exactly if the least count does. -/
theorem exists_fails_iff (hstep : Monotonic step) (p : Prog α) (h : ℕ) :
    (∃ t, p.Reaches t ∧ runActions step h t = none) ↔ p.least step h = .fails := by
  constructor
  · rintro ⟨t, ht, hrun⟩
    exact (p.sound hstep).reaches t h h ht le_rfl hrun
  · exact p.exact.fails h

end Prog

end Runs

end MlirAie.Lib
