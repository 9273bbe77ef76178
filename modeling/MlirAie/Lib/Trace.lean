import Mathlib

/-!
# Runs of a sequence of events

A system that executes a given sequence of events in order, with internal steps of its own before,
between and after them. A triple `Triple P es Q` is partial correctness with safety: from a state
with `P`, no event is ever reached in a state where it is not `ok`, and the end of the sequence is
reached in a state with `Q`. Safety is about every prefix, so a run that blocks counts as well.

* `Machine`: internal steps, event steps and the safety predicate;
* `Exec`: the runs; `Machine.Stable`: kept by internal steps;
* **`Triple.append`**, `Triple.event`, `Triple.flatten`: sequencing, one event, repetition.
-/

namespace MlirAie.Lib

/-- A system driven by events. -/
structure Machine (σ ε : Type*) where
  internal : σ → σ → Prop
  step : ε → σ → σ → Prop
  ok : ε → σ → Prop

namespace Machine

variable {σ ε : Type*} (M : Machine σ ε)

/-- The runs of a sequence of events. -/
inductive Exec : σ → List ε → σ → Prop
  | done (s : σ) : Exec s [] s
  | internal {s s' s'' : σ} {es : List ε} : M.internal s s' → Exec s' es s'' → Exec s es s''
  | event {s s' s'' : σ} {e : ε} {es : List ε} : M.step e s s' → Exec s' es s'' →
      Exec s (e :: es) s''

/-- Internal steps keep `P`. -/
def Stable (P : σ → Prop) : Prop := ∀ s s', M.internal s s' → P s → P s'

/-- From `P`, every event reached is `ok`, and the end is reached with `Q`. -/
def Triple (P : σ → Prop) (es : List ε) (Q : σ → Prop) : Prop :=
  ∀ s s' pre post, P s → es = pre ++ post → M.Exec s pre s' →
    (post = [] → Q s') ∧ ∀ e ∈ post.head?, M.ok e s'

variable {M} {P Q R : σ → Prop} {es fs : List ε}

theorem Exec.of_append {s s'' : σ} (h : M.Exec s (es ++ fs) s'') :
    ∃ s', M.Exec s es s' ∧ M.Exec s' fs s'' := by
  generalize hes : es ++ fs = gs at h
  induction h generalizing es with
  | done s =>
    obtain ⟨rfl, rfl⟩ := List.append_eq_nil_iff.1 hes
    exact ⟨s, .done s, .done s⟩
  | internal hi _ ih =>
    obtain ⟨s', h₁, h₂⟩ := ih hes
    exact ⟨s', .internal hi h₁, h₂⟩
  | @event s₁ s₂ s₃ e gs he hrun ih =>
    rcases List.append_eq_cons_iff.1 hes with ⟨rfl, rfl⟩ | ⟨es', rfl, rfl⟩
    · exact ⟨s₁, .done s₁, .event he hrun⟩
    · obtain ⟨s', h₁, h₂⟩ := ih rfl
      exact ⟨s', .event he h₁, h₂⟩

theorem Stable.exec (hP : M.Stable P) {s s' : σ} (h : M.Exec s [] s') (hs : P s) : P s' := by
  generalize hes : ([] : List ε) = es at h
  induction h with
  | done s => exact hs
  | internal hi _ ih => exact ih (hP _ _ hi hs) hes
  | event => cases hes

theorem Triple.nil (hP : M.Stable P) : M.Triple P [] P := by
  intro s s' pre post hs hes hrun
  obtain ⟨rfl, rfl⟩ := List.append_eq_nil_iff.1 hes.symm
  exact ⟨fun _ => hP.exec hrun hs, fun _ h => by cases h⟩

/-- **One triple after another.** -/
theorem Triple.append (h : M.Triple P es R) (h' : M.Triple R fs Q) : M.Triple P (es ++ fs) Q := by
  intro s s' pre post hs hes hrun
  rcases List.append_eq_append_iff.1 hes with ⟨as, rfl, rfl⟩ | ⟨bs, rfl, rfl⟩
  · obtain ⟨t, hrun₁, hrun₂⟩ := hrun.of_append
    exact h' t s' as post ((h s t es [] hs (List.append_nil _).symm hrun₁).1 rfl) rfl hrun₂
  · cases bs with
    | nil => exact h' s' s' [] fs ((h s s' pre [] hs rfl hrun).1 rfl) rfl (.done s')
    | cons b bs =>
      refine ⟨fun hnil => by simp at hnil, ?_⟩
      exact (h s s' pre (b :: bs) hs rfl hrun).2

theorem Triple.pre (h : M.Triple P es Q) (hR : ∀ s, R s → P s) : M.Triple R es Q :=
  fun s s' pre post hs => h s s' pre post (hR s hs)

theorem Triple.post (h : M.Triple P es Q) (hR : ∀ s, Q s → R s) : M.Triple P es R :=
  fun s s' pre post hs hes hrun =>
    ⟨fun hp => hR s' ((h s s' pre post hs hes hrun).1 hp), (h s s' pre post hs hes hrun).2⟩

theorem Triple.exists_pre {ι : Type*} {xs : List ι} {P : ι → σ → Prop}
    (h : ∀ x ∈ xs, M.Triple (P x) es Q) : M.Triple (fun s => ∃ x ∈ xs, P x s) es Q := by
  rintro s s' pre post ⟨x, hx, hs⟩
  exact h x hx s s' pre post hs

theorem Triple.event {e : ε} (hP : M.Stable P) (hQ : M.Stable Q) (hok : ∀ s, P s → M.ok e s)
    (hstep : ∀ s s', P s → M.step e s s' → Q s') : M.Triple P [e] Q := by
  intro s s' pre post hs hes hrun
  cases pre with
  | nil =>
    obtain rfl : [e] = post := hes
    refine ⟨fun h => (nomatch h), fun e' he' => ?_⟩
    obtain rfl : e = e' := Option.some.inj he'
    exact hok s' (hP.exec hrun hs)
  | cons p pre =>
    obtain ⟨rfl, hnil⟩ := List.cons_eq_cons.1 hes
    obtain ⟨rfl, rfl⟩ := List.append_eq_nil_iff.1 hnil.symm
    refine ⟨fun _ => ?_, fun _ h => by cases h⟩
    generalize hgs : [e] = gs at hrun
    induction hrun with
    | done => cases hgs
    | internal hi _ ih => exact ih (hP _ _ hi hs) hgs
    | event he hrest _ =>
      obtain ⟨rfl, rfl⟩ := List.cons_eq_cons.1 hgs
      exact hQ.exec hrest (hstep _ _ hs he)

/-- What every part keeps, the whole keeps. -/
theorem Triple.flatten (hP : M.Stable P) {ess : List (List ε)} (h : ∀ es ∈ ess, M.Triple P es P) :
    M.Triple P ess.flatten P := by
  induction ess with
  | nil => exact .nil hP
  | cons es ess ih =>
    rw [List.forall_mem_cons] at h
    exact h.1.append (ih h.2)

theorem Triple.safe (h : M.Triple P es Q) {s s' : σ} {e : ε} {pre post : List ε} (hs : P s)
    (hes : es = pre ++ e :: post) (hrun : M.Exec s pre s') : M.ok e s' :=
  (h s s' pre (e :: post) hs hes hrun).2 e rfl

theorem Triple.final (h : M.Triple P es Q) {s s' : σ} (hs : P s) (hrun : M.Exec s es s') : Q s' :=
  (h s s' es [] hs (List.append_nil _).symm hrun).1 rfl

end Machine

end MlirAie.Lib
