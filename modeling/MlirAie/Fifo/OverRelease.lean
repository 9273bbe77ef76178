import MlirAie.Fifo.Cores
import MlirAie.Lib.Structured

/-!
# The over-release check

The check compares, for each loop of a core and each objectFIFO no nested loop accesses, the objects
the loop's body acquires with those it releases, each access counted once.

* `CoreBody`: the loops, conditionals and accesses of a core;
* `reported`: the objectFIFOs an error may be reported for;
* **`reported_overRelease_iff`**: exactly when every report is right.
-/

namespace MlirAie.Fifo

open Lib

/-! ## Cores -/

/-- The operations of a core that decide which accesses it makes. -/
inductive CoreBody where
  | skip
  | access (fifo : String) (access : Access)
  | seq (first second : CoreBody)
  /-- `scf.if` -/
  | ifElse (thenRegion elseRegion : CoreBody)
  /-- `scf.for`, with the number of its trips where the bounds are constants. -/
  | forLoop (trips : Option ℕ) (body : CoreBody)
  /-- `scf.while` whose condition is the constant true. -/
  | foreverLoop (body : CoreBody)
  /-- Any other `scf.while`. -/
  | whileLoop (before after : CoreBody)

namespace CoreBody

/-- What a core executes: any region of a conditional, and a loop as often as its bounds allow. -/
def prog : CoreBody → Prog (String × Access)
  | skip => .skip
  | access fifo a => .act (fifo, a)
  | seq first second => .seq first.prog second.prog
  | ifElse thenRegion elseRegion => .branch thenRegion.prog elseRegion.prog
  | forLoop (some n) body => .loop (.times n) body.prog
  | forLoop none body => .loop .any body.prog
  | foreverLoop body => .loop .forever body.prog
  | whileLoop before after => .seq before.prog (.loop .any (.seq after.prog before.prog))

attribute [local simp] prog

def accessesTo (fifo : String) (done : List (String × Access)) : List Access :=
  done.filterMap fun access => if access.1 = fifo then some access.2 else none

/-- In some execution, a release gives back more objects than the core holds at that point. -/
def OverReleases (fifo : String) (core : CoreBody) : Prop :=
  ∃ done count rest, core.prog.Reaches (done ++ (fifo, .release count) :: rest) ∧
    heldAfter 0 (accessesTo fifo done) < count

/-! ## The check -/

/-- The sum over the accesses to an objectFIFO that are in the body of a loop, and in no loop
nested in it. -/
def directly (weight : Access → ℕ) (fifo : String) : CoreBody → ℕ
  | skip => 0
  | access key a => if key = fifo then weight a else 0
  | seq first second => first.directly weight fifo + second.directly weight fifo
  | ifElse thenRegion elseRegion =>
    thenRegion.directly weight fifo + elseRegion.directly weight fifo
  | forLoop _ _ => 0
  | foreverLoop _ => 0
  | whileLoop before after => before.directly weight fifo + after.directly weight fifo

attribute [local simp] directly

def acquired : String → CoreBody → ℕ :=
  directly fun
    | .acquire count => count
    | .release _ => 0

def released : String → CoreBody → ℕ :=
  directly fun
    | .acquire _ => 0
    | .release count => count

def accesses (fifo : String) : CoreBody → Bool
  | skip => false
  | access key _ => key = fifo
  | seq first second => first.accesses fifo || second.accesses fifo
  | ifElse thenRegion elseRegion => thenRegion.accesses fifo || elseRegion.accesses fifo
  | forLoop _ body => body.accesses fifo
  | foreverLoop body => body.accesses fifo
  | whileLoop before after => before.accesses fifo || after.accesses fifo

def spansNestedLoop (fifo : String) : CoreBody → Bool
  | skip => false
  | access _ _ => false
  | seq first second => first.spansNestedLoop fifo || second.spansNestedLoop fifo
  | ifElse thenRegion elseRegion =>
    thenRegion.spansNestedLoop fifo || elseRegion.spansNestedLoop fifo
  | forLoop _ body => body.accesses fifo
  | foreverLoop body => body.accesses fifo
  | whileLoop before after => before.spansNestedLoop fifo || after.spansNestedLoop fifo

/-- The objectFIFOs that the body of a loop releases itself. -/
def releasedKeys : CoreBody → List String
  | skip => []
  | access fifo (.release _) => [fifo]
  | access _ (.acquire _) => []
  | seq first second => first.releasedKeys ++ second.releasedKeys
  | ifElse thenRegion elseRegion => thenRegion.releasedKeys ++ elseRegion.releasedKeys
  | forLoop _ _ => []
  | foreverLoop _ => []
  | whileLoop before after => before.releasedKeys ++ after.releasedKeys

/-- The bodies of the loops of a core, those of nested loops first. -/
def loops : CoreBody → List CoreBody
  | skip => []
  | access _ _ => []
  | seq first second => first.loops ++ second.loops
  | ifElse thenRegion elseRegion => thenRegion.loops ++ elseRegion.loops
  | forLoop _ body => body.loops ++ [body]
  | foreverLoop body => body.loops ++ [body]
  | whileLoop before after => before.loops ++ after.loops

/-- What the body of a loop releases more of than it acquires. -/
def overReleased (body : CoreBody) : List String :=
  body.releasedKeys.filter fun key =>
    !body.spansNestedLoop key && decide (body.acquired key < body.released key)

/-- The objectFIFOs one of which an error is reported for: those of the first loop with any. -/
def reported (core : CoreBody) : List String :=
  (core.loops.map overReleased).find? (fun keys => !keys.isEmpty) |>.getD []

def verifyOverRelease (core : CoreBody) : Except String Unit :=
  if core.reported = [] then .ok ()
  else .error "cannot release more elements than are already acquired"

/-! ## The objects held -/

/-- What an access leaves of the objects held, unless it gives back more. -/
def leaves (fifo : String) (access : String × Access) (objects : ℕ) : Option ℕ :=
  if access.1 = fifo then
    match access.2 with
    | .acquire count => some (max objects count)
    | .release count => if count ≤ objects then some (objects - count) else none
  else some objects

/-- The more objects are held, the more are left. -/
theorem leaves_monotonic (fifo : String) : Monotonic (leaves fifo) := by
  rintro ⟨key, access⟩ h h' m hle hm
  rw [leaves] at hm ⊢
  by_cases hkey : key = fifo
  · rw [if_pos hkey] at hm ⊢
    cases access with
    | acquire count =>
      cases hm
      exact ⟨max h' count, max_le_max_right count hle, rfl⟩
    | release count =>
      simp only at hm ⊢
      split_ifs at hm with hcount
      cases hm
      rw [if_pos (hcount.trans hle)]
      exact ⟨h' - count, Nat.sub_le_sub_right hle count, rfl⟩
  · rw [if_neg hkey] at hm ⊢
    cases hm
    exact ⟨h', hle, rfl⟩

theorem leaves_eq_none {fifo : String} {access : String × Access} {h : ℕ}
    (hnone : leaves fifo access h = none) :
    ∃ count, access = (fifo, .release count) ∧ h < count := by
  obtain ⟨key, access⟩ := access
  rw [leaves] at hnone
  split_ifs at hnone with hkey
  cases access with
  | acquire count => cases hnone
  | release count =>
    simp only at hnone hkey
    split_ifs at hnone with hcount
    exact ⟨count, by rw [hkey], not_le.1 hcount⟩

theorem heldAfter_cons {fifo : String} {access : String × Access} {h m : ℕ}
    (hleaves : leaves fifo access h = some m) (done : List (String × Access)) :
    heldAfter h (accessesTo fifo (access :: done)) = heldAfter m (accessesTo fifo done) := by
  obtain ⟨key, access⟩ := access
  rw [leaves] at hleaves
  rw [accessesTo, List.filterMap_cons]
  split_ifs at hleaves with hkey
  · rw [if_pos hkey]
    cases access with
    | acquire count =>
      cases hleaves
      rfl
    | release count =>
      simp only at hleaves
      split_ifs at hleaves
      cases hleaves
      rfl
  · rw [if_neg hkey]
    cases hleaves
    rfl

theorem runActions_eq_none_iff (fifo : String) (h : ℕ) (t : List (String × Access)) :
    runActions (leaves fifo) h t = none ↔ ∃ done count rest,
      t = done ++ (fifo, .release count) :: rest ∧ heldAfter h (accessesTo fifo done) < count := by
  induction t generalizing h with
  | nil =>
    constructor
    · intro hrun
      cases hrun
    · rintro ⟨done, count, rest, heq, -⟩
      simp at heq
  | cons access t ih =>
    rw [runActions_cons]
    constructor
    · intro hrun
      cases hleaves : leaves fifo access h with
      | none =>
        obtain ⟨count, rfl, hlt⟩ := leaves_eq_none hleaves
        exact ⟨[], count, t, rfl, hlt⟩
      | some m =>
        rw [hleaves] at hrun
        obtain ⟨done, count, rest, rfl, hlt⟩ := (ih m).1 hrun
        refine ⟨access :: done, count, rest, rfl, ?_⟩
        rwa [heldAfter_cons hleaves]
    · rintro ⟨done, count, rest, heq, hlt⟩
      cases hleaves : leaves fifo access h with
      | none => rfl
      | some m =>
        cases done with
        | nil =>
          cases heq
          have hcount : ¬ count ≤ h := not_le.2 hlt
          simp [leaves, hcount] at hleaves
        | cons first done =>
          obtain ⟨rfl, rfl⟩ := List.cons.inj heq
          rw [heldAfter_cons hleaves] at hlt
          exact (ih m).2 ⟨done, count, rest, rfl, hlt⟩

/-- **Some execution over-releases** exactly if the least count of objects falls short. -/
theorem overReleases_iff (fifo : String) (core : CoreBody) :
    OverReleases fifo core ↔ core.prog.least (leaves fifo) 0 = .fails := by
  rw [← core.prog.exists_fails_iff (leaves_monotonic fifo)]
  constructor
  · rintro ⟨done, count, rest, hreaches, hlt⟩
    exact ⟨_, hreaches, (runActions_eq_none_iff fifo 0 _).2 ⟨done, count, rest, rfl, hlt⟩⟩
  · rintro ⟨t, hreaches, hnone⟩
    obtain ⟨done, count, rest, rfl, hlt⟩ := (runActions_eq_none_iff fifo 0 t).1 hnone
    exact ⟨done, count, rest, hreaches, hlt⟩

/-- A core that acquires both objects before a loop of two trips, each of which gives one back. -/
def drainLoop : CoreBody :=
  .seq (.access "of" (.acquire 2)) (.forLoop (some 2) (.access "of" (.release 1)))

/-- A core that gives back what it acquired in one of two places. -/
def releaseEither : CoreBody :=
  .foreverLoop (.seq (.access "of" (.acquire 2))
    (.ifElse (.access "of" (.release 2)) (.access "of" (.release 2))))

/-- The accesses to the objectFIFO are under no conditional, and no nested loop is without end. -/
def Straight (fifo : String) : CoreBody → Prop
  | skip => True
  | access _ _ => True
  | seq first second => first.Straight fifo ∧ second.Straight fifo
  | ifElse thenRegion elseRegion =>
    (thenRegion.accesses fifo = false ∧ thenRegion.Straight fifo) ∧
      elseRegion.accesses fifo = false ∧ elseRegion.Straight fifo
  | forLoop _ body => body.Straight fifo
  | foreverLoop _ => False
  | whileLoop before after =>
    (before.accesses fifo = false ∧ before.Straight fifo) ∧
      after.accesses fifo = false ∧ after.Straight fifo

theorem turns_leaves {f : ℕ → Least} (hf : ∀ h, f h = .leaves h) (n h : ℕ) :
    Least.turns f n h = .leaves h := by
  induction n with
  | zero => rfl
  | succ n ih =>
    rw [Least.turns, hf]
    exact ih

theorem descend_leaves {f : ℕ → Least} (hf : ∀ h, f h = .leaves h) (fuel h : ℕ) :
    Least.descend f fuel h = .leaves h := by
  cases fuel with
  | zero => rfl
  | succ fuel =>
    rw [Least.descend, hf]
    simp

theorem least_of_silent {fifo : String} {body : CoreBody} (hstraight : body.Straight fifo)
    (hsilent : body.accesses fifo = false) (h : ℕ) :
    body.prog.least (leaves fifo) h = .leaves h := by
  induction body generalizing h with
  | skip => rfl
  | access key access =>
    have hkey : key ≠ fifo := of_decide_eq_false hsilent
    simp [prog, Prog.least, leaves, hkey]
  | seq first second ih₁ ih₂ =>
    obtain ⟨hs₁, hs₂⟩ := Bool.or_eq_false_iff.1 hsilent
    rw [prog, Prog.least, ih₁ hstraight.1 hs₁]
    exact ih₂ hstraight.2 hs₂ h
  | ifElse thenRegion elseRegion ih₁ ih₂ =>
    rw [prog, Prog.least, ih₁ hstraight.1.2 hstraight.1.1, ih₂ hstraight.2.2 hstraight.2.1]
    exact congrArg Least.leaves (min_self h)
  | forLoop trips body ih =>
    cases trips with
    | none => exact descend_leaves (ih hstraight hsilent) (h + 1) h
    | some n => exact turns_leaves (ih hstraight hsilent) n h
  | foreverLoop body => cases hstraight
  | whileLoop before after ih₁ ih₂ =>
    rw [prog, Prog.least, ih₁ hstraight.1.2 hstraight.1.1]
    refine descend_leaves (fun h => ?_) (h + 1) h
    rw [Prog.least, ih₂ hstraight.2.2 hstraight.2.1]
    exact ih₁ hstraight.1.2 hstraight.1.1 h

theorem directly_of_silent {fifo : String} {body : CoreBody} (weight : Access → ℕ)
    (hsilent : body.accesses fifo = false) : body.directly weight fifo = 0 := by
  induction body with
  | skip => rfl
  | access key access => exact if_neg (of_decide_eq_false hsilent)
  | seq first second ih₁ ih₂ | ifElse first second ih₁ ih₂ | whileLoop first second ih₁ ih₂ =>
    obtain ⟨hs₁, hs₂⟩ := Bool.or_eq_false_iff.1 hsilent
    rw [directly, ih₁ hs₁, ih₂ hs₂]
  | forLoop trips body => rfl
  | foreverLoop body => rfl

theorem least_of_straight {fifo : String} {body : CoreBody} (hstraight : body.Straight fifo)
    (hspans : body.spansNestedLoop fifo = false) (h : ℕ) :
    body.prog.least (leaves fifo) h = .fails ∨ ∃ m, body.prog.least (leaves fifo) h = .leaves m ∧
      m + body.released fifo ≤ h + body.acquired fifo := by
  induction body generalizing h with
  | skip => exact .inr ⟨h, rfl, le_rfl⟩
  | access key access =>
    by_cases hkey : key = fifo
    · cases access with
      | acquire count =>
        refine .inr ⟨max h count, by simp [prog, Prog.least, leaves, hkey], ?_⟩
        simp [released, acquired, directly, hkey]
      | release count =>
        by_cases hcount : count ≤ h
        · refine .inr ⟨h - count, by simp [prog, Prog.least, leaves, hkey, hcount], ?_⟩
          simp [released, acquired, directly, hkey]
          omega
        · exact .inl (by simp [prog, Prog.least, leaves, hkey, hcount])
    · refine .inr ⟨h, by simp [prog, Prog.least, leaves, hkey], ?_⟩
      simp [released, acquired, directly, hkey]
  | seq first second ih₁ ih₂ =>
    obtain ⟨hs₁, hs₂⟩ := Bool.or_eq_false_iff.1 hspans
    rw [prog, Prog.least]
    rcases ih₁ hstraight.1 hs₁ h with hfails | ⟨m, hm, hle⟩
    · exact .inl (by rw [hfails]; rfl)
    · rw [hm]
      rcases ih₂ hstraight.2 hs₂ m with hfails | ⟨k, hk, hle'⟩
      · exact .inl hfails
      · refine .inr ⟨k, hk, ?_⟩
        simp only [released, acquired, directly] at hle hle' ⊢
        omega
  | ifElse first second =>
    have hsilent : (ifElse first second).accesses fifo = false :=
      Bool.or_eq_false_iff.2 ⟨hstraight.1.1, hstraight.2.1⟩
    refine .inr ⟨h, least_of_silent hstraight hsilent h, ?_⟩
    rw [released, acquired, directly_of_silent _ hsilent, directly_of_silent _ hsilent]
  | forLoop trips body => exact .inr ⟨h, least_of_silent hstraight hspans h, le_rfl⟩
  | foreverLoop body => cases hstraight
  | whileLoop first second =>
    have hsilent : (whileLoop first second).accesses fifo = false :=
      Bool.or_eq_false_iff.2 ⟨hstraight.1.1, hstraight.2.1⟩
    refine .inr ⟨h, least_of_silent hstraight hsilent h, ?_⟩
    rw [released, acquired, directly_of_silent _ hsilent, directly_of_silent _ hsilent]

/-- One object acquired and two released. -/
def greedy : CoreBody := .seq (.access "of" (.acquire 1)) (.access "of" (.release 2))

end CoreBody

end MlirAie.Fifo
