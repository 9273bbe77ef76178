import MlirAie.Lib.Structured

/-!
# The last effect of a structured program

Some actions of a program have an effect; the last one that a run took decides. Which effects can be
the last of a whole run is read off the program.

* `lastEffect`: the last effect of a sequence of actions;
* `Prog.mayComplete`, `Prog.mayEnd`: whether a run comes to its end, and with which last effect;
* **`mayComplete_iff`**, **`mayEnd_iff`**: some run does.
-/

namespace MlirAie.Lib

variable {α β : Type*}

/-! ## Sequences of actions -/

def lastEffect (f : α → Option β) (t : List α) : Option β := (t.filterMap f).getLast?

theorem lastEffect_nil (f : α → Option β) : lastEffect f [] = none := rfl

theorem lastEffect_single (f : α → Option β) (a : α) : lastEffect f [a] = f a := by
  unfold lastEffect
  cases h : f a with
  | none => simp [h]
  | some b => simp [h]

theorem lastEffect_append (f : α → Option β) (s t : List α) :
    lastEffect f (s ++ t) = (lastEffect f t).or (lastEffect f s) := by
  unfold lastEffect
  rw [List.filterMap_append, List.getLast?_append]

theorem lastEffect_append_some {f : α → Option β} {s t : List α} {b : β}
    (h : lastEffect f t = some b) : lastEffect f (s ++ t) = some b := by
  rw [lastEffect_append, h]
  rfl

theorem lastEffect_flatten {f : α → Option β} {turns : List (List α)} (h : turns ≠ []) :
    ∃ s ∈ turns, lastEffect f turns.flatten = lastEffect f s := by
  induction turns with
  | nil => exact absurd rfl h
  | cons s turns ih =>
    rw [List.flatten_cons, lastEffect_append]
    by_cases hturns : turns = []
    · subst hturns
      exact ⟨s, List.mem_cons_self, by rw [List.flatten_nil, lastEffect_nil, Option.none_or]⟩
    · obtain ⟨u, hu, hlast⟩ := ih hturns
      rw [hlast]
      cases hu' : lastEffect f u with
      | none => exact ⟨s, List.mem_cons_self, by rw [Option.none_or]⟩
      | some b => exact ⟨u, List.mem_cons_of_mem s hu, by rw [hu']; rfl⟩

theorem lastEffect_replicate {f : α → Option β} {s : List α} {n : ℕ} :
    lastEffect f (List.replicate (n + 1) s).flatten = lastEffect f s := by
  induction n with
  | zero => simp
  | succ n ih =>
    rw [List.replicate_succ, List.flatten_cons, lastEffect_append, ih]
    cases lastEffect f s <;> rfl

/-! ## Programs -/

namespace Prog

/-- Whether a run can come to its end. -/
def mayComplete : Prog α → Bool
  | skip => true
  | act _ => true
  | seq p q => p.mayComplete && q.mayComplete
  | branch p q => p.mayComplete || q.mayComplete
  | loop (.times n) body => n == 0 || body.mayComplete
  | loop .any _ => true
  | loop .forever _ => false

/-- Whether a run can come to its end with this last effect. -/
def mayEnd [DecidableEq β] (f : α → Option β) : Prog α → Option β → Bool
  | skip, x => x = none
  | act a, x => x = f a
  | seq p q, x => (x ≠ none && p.mayComplete && q.mayEnd f x) || (q.mayEnd f none && p.mayEnd f x)
  | branch p q, x => p.mayEnd f x || q.mayEnd f x
  | loop (.times n) body, x => if n = 0 then x = none else body.mayEnd f x
  | loop .any body, x => x = none || body.mayEnd f x
  | loop .forever _, _ => false

/-- **Some run comes to its end**. -/
theorem mayComplete_iff (p : Prog α) : p.mayComplete = true ↔ ∃ t, p.Completes t := by
  induction p with
  | skip => exact iff_of_true rfl ⟨[], rfl⟩
  | act a => exact iff_of_true rfl ⟨[a], rfl⟩
  | seq p q hp hq =>
    rw [mayComplete, Bool.and_eq_true, hp, hq]
    constructor
    · rintro ⟨⟨s, hs⟩, ⟨u, hu⟩⟩
      exact ⟨s ++ u, s, u, hs, hu, rfl⟩
    · rintro ⟨_, s, u, hs, hu, rfl⟩
      exact ⟨⟨s, hs⟩, ⟨u, hu⟩⟩
  | branch p q hp hq =>
    rw [mayComplete, Bool.or_eq_true, hp, hq, ← exists_or]
    rfl
  | loop trips body hbody =>
    cases trips with
    | times n =>
      rw [mayComplete, Bool.or_eq_true, beq_iff_eq, hbody]
      constructor
      · rintro (rfl | ⟨s, hs⟩)
        · exact ⟨[], [], rfl, List.forall_mem_nil _, rfl⟩
        · exact ⟨_, List.replicate n s, List.length_replicate,
            fun u hu => List.eq_of_mem_replicate hu ▸ hs, rfl⟩
      · rintro ⟨_, turns, hn, hturns, rfl⟩
        cases turns with
        | nil => exact Or.inl hn.symm
        | cons s turns => exact Or.inr ⟨s, hturns s List.mem_cons_self⟩
    | any => exact iff_of_true rfl ⟨[], [], trivial, List.forall_mem_nil _, rfl⟩
    | forever =>
      refine iff_of_false (by simp [mayComplete]) ?_
      rintro ⟨_, _, hallows, -⟩
      exact hallows

/-- **Some run comes to its end with this last effect**. -/
theorem mayEnd_iff [DecidableEq β] (f : α → Option β) (p : Prog α) (x : Option β) :
    p.mayEnd f x = true ↔ ∃ t, p.Completes t ∧ lastEffect f t = x := by
  induction p generalizing x with
  | skip =>
    simp only [mayEnd, Completes, decide_eq_true_eq, exists_eq_left, lastEffect_nil]
    exact eq_comm
  | act a =>
    simp only [mayEnd, Completes, decide_eq_true_eq, exists_eq_left, lastEffect_single]
    exact eq_comm
  | seq p q hp hq =>
    simp only [mayEnd, Bool.or_eq_true, Bool.and_eq_true, decide_eq_true_eq, hp, hq,
      mayComplete_iff]
    constructor
    · rintro (⟨⟨hx, s, hs⟩, u, hu, rfl⟩ | ⟨⟨u, hu, hnone⟩, s, hs, rfl⟩)
      · refine ⟨s ++ u, ⟨s, u, hs, hu, rfl⟩, ?_⟩
        obtain ⟨b, hb⟩ := Option.ne_none_iff_exists'.1 hx
        rw [hb]
        exact lastEffect_append_some hb
      · refine ⟨s ++ u, ⟨s, u, hs, hu, rfl⟩, ?_⟩
        rw [lastEffect_append, hnone, Option.none_or]
    · rintro ⟨_, ⟨s, u, hs, hu, rfl⟩, rfl⟩
      rw [lastEffect_append]
      cases hlast : lastEffect f u with
      | none => exact Or.inr ⟨⟨u, hu, hlast⟩, s, hs, by rw [Option.none_or]⟩
      | some b => exact Or.inl ⟨⟨by simp, s, hs⟩, u, hu, by rw [hlast]; rfl⟩
  | branch p q hp hq =>
    rw [mayEnd, Bool.or_eq_true, hp, hq, ← exists_or]
    exact exists_congr fun t => or_and_right.symm
  | loop trips body hbody =>
    -- as many turns of one run end as the run does, and any turns end as one of them
    have hturn : ∀ {turns : List (List α)}, (∀ s ∈ turns, body.Completes s) → turns ≠ [] →
        body.mayEnd f (lastEffect f turns.flatten) = true := by
      intro turns hturns hne
      obtain ⟨s, hs, hlast⟩ := lastEffect_flatten (f := f) hne
      exact (hbody _).2 ⟨s, hturns s hs, hlast.symm⟩
    cases trips with
    | times n =>
      rw [mayEnd]
      cases n with
      | zero =>
        rw [if_pos rfl, decide_eq_true_eq]
        constructor
        · rintro rfl
          exact ⟨[], ⟨[], rfl, List.forall_mem_nil _, rfl⟩, rfl⟩
        · rintro ⟨_, ⟨turns, hn, -, rfl⟩, rfl⟩
          rw [List.length_eq_zero_iff.1 hn]
          rfl
      | succ n =>
        rw [if_neg (Nat.succ_ne_zero n)]
        constructor
        · intro h
          obtain ⟨s, hs, rfl⟩ := (hbody x).1 h
          exact ⟨_, ⟨List.replicate (n + 1) s, List.length_replicate,
            fun u hu => List.eq_of_mem_replicate hu ▸ hs, rfl⟩, lastEffect_replicate⟩
        · rintro ⟨_, ⟨turns, hn, hturns, rfl⟩, rfl⟩
          exact hturn hturns (List.ne_nil_of_length_eq_add_one hn)
    | any =>
      rw [mayEnd, Bool.or_eq_true, decide_eq_true_eq]
      constructor
      · rintro (rfl | h)
        · exact ⟨[], ⟨[], trivial, List.forall_mem_nil _, rfl⟩, rfl⟩
        · obtain ⟨s, hs, rfl⟩ := (hbody x).1 h
          exact ⟨s, ⟨[s], trivial, List.forall_mem_singleton.2 hs, by simp⟩, rfl⟩
      · rintro ⟨_, ⟨turns, -, hturns, rfl⟩, rfl⟩
        by_cases hne : turns = []
        · subst hne
          exact Or.inl rfl
        · exact Or.inr (hturn hturns hne)
    | forever =>
      refine iff_of_false (by simp [mayEnd]) ?_
      rintro ⟨_, ⟨_, hallows, -⟩, -⟩
      exact hallows

/-! ## Runs as far as they have come -/

/-- A whole run is one as far as it has come. -/
theorem Completes.reaches {p : Prog α} {t : List α} (h : p.Completes t) : p.Reaches t := by
  induction p generalizing t with
  | skip => exact h
  | act a => exact Or.inr h
  | seq p q hp hq =>
    obtain ⟨s, u, hs, hu, rfl⟩ := h
    exact Or.inr ⟨s, u, hs, hq hu, rfl⟩
  | branch p q hp hq => exact h.imp hp hq
  | loop trips body hbody =>
    obtain ⟨turns, hallows, hturns, rfl⟩ := h
    rcases List.eq_nil_or_concat turns with rfl | ⟨front, s, rfl⟩
    · exact Or.inl rfl
    · rw [List.concat_eq_append] at hallows hturns ⊢
      refine Or.inr ⟨front, s, ?_, fun u hu => hturns u (List.mem_append_left _ hu),
        hbody (hturns s (List.mem_append_right _ (List.mem_singleton_self s))), by simp⟩
      cases trips with
      | times n =>
        change (front ++ [s]).length = n at hallows
        rw [List.length_append, List.length_singleton] at hallows
        change front.length < n
        omega
      | any => trivial
      | forever => trivial

theorem exists_part_of_snoc {P : List α → Prop} {turns : List (List α)} {s t : List α} {a : α}
    (hturns : ∀ u ∈ turns, P u) (hs : P s) (h : t ++ [a] = turns.flatten ++ s) :
    ∃ earlier u, P (u ++ [a]) ∧ t = earlier ++ u := by
  rcases List.eq_nil_or_concat s with rfl | ⟨u, b, rfl⟩
  · rw [List.append_nil] at h
    induction turns generalizing t with
    | nil => simp at h
    | cons v turns ih =>
      by_cases hflat : turns.flatten = []
      · rw [List.flatten_cons, hflat, List.append_nil] at h
        exact ⟨[], t, h ▸ hturns v List.mem_cons_self, rfl⟩
      · obtain ⟨w, b, hw⟩ := (List.eq_nil_or_concat turns.flatten).resolve_left hflat
        rw [List.flatten_cons, hw, List.concat_eq_append, ← List.append_assoc] at h
        obtain ⟨hinit, hlast⟩ := List.append_inj' h rfl
        obtain ⟨earlier, u, hu, rfl⟩ := ih (t := w)
          (fun u hu => hturns u (List.mem_cons_of_mem v hu))
          (by rw [hw, List.concat_eq_append]; exact congrArg (w ++ ·) hlast)
        exact ⟨v ++ earlier, u, hu, by rw [hinit, List.append_assoc]⟩
  · rw [List.concat_eq_append, ← List.append_assoc] at h
    obtain ⟨hinit, hlast⟩ := List.append_inj' h rfl
    rw [List.cons.injEq] at hlast
    refine ⟨turns.flatten, u, ?_, hinit⟩
    rw [hlast.1, ← List.concat_eq_append]
    exact hs

end Prog

end MlirAie.Lib
