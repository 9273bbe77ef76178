import Mathlib

/-!
# Lists of intervals

A function on the positions from `lo` to `hi`, given by the intervals it is constant on.

* **`Paints`**: a list of intervals covers `lo` to `hi` in order, each in the function's state;
* `joinEqual`: neighbours in one state become one interval;
* **`eq_of_paints`**: two lists whose neighbours differ are the same list.
-/

namespace MlirAie.Lib

/-- A range of positions, up to `hi`, in one state. -/
structure Interval (α : Type*) where
  lo : ℕ
  hi : ℕ
  state : α
deriving DecidableEq

variable {α : Type*} {f g : ℕ → α} {lo mid hi : ℕ} {l m : List (Interval α)}

/-- The intervals cover `lo` to `hi` in order, none of them empty, each in the state of `f`. -/
def Paints (f : ℕ → α) : ℕ → List (Interval α) → ℕ → Prop
  | lo, [], hi => lo = hi
  | lo, s :: l, hi =>
    s.lo = lo ∧ lo < s.hi ∧ (∀ b, lo ≤ b → b < s.hi → f b = s.state) ∧ Paints f s.hi l hi

def Differ (s t : Interval α) : Prop := s.state ≠ t.state

namespace Paints

theorem le (h : Paints f lo l hi) : lo ≤ hi := by
  induction l generalizing lo with
  | nil => exact h.le
  | cons s l ih => exact h.2.1.le.trans (ih h.2.2.2)

theorem singleton {s : α} (h : lo < hi) (hf : ∀ b, lo ≤ b → b < hi → f b = s) :
    Paints f lo [⟨lo, hi, s⟩] hi := ⟨rfl, h, hf, rfl⟩

theorem append_iff :
    Paints f lo (l ++ m) hi ↔ ∃ mid, Paints f lo l mid ∧ Paints f mid m hi := by
  induction l generalizing lo with
  | nil => exact ⟨fun h => ⟨lo, rfl, h⟩, fun ⟨_, h, h'⟩ => h ▸ h'⟩
  | cons s l ih =>
    simp only [List.cons_append, Paints, ih]
    constructor
    · rintro ⟨h, h', hf, mid, hl, hm⟩
      exact ⟨mid, ⟨h, h', hf, hl⟩, hm⟩
    · rintro ⟨mid, ⟨h, h', hf, hl⟩, hm⟩
      exact ⟨h, h', hf, mid, hl, hm⟩

theorem append (h : Paints f lo l mid) (h' : Paints f mid m hi) : Paints f lo (l ++ m) hi :=
  append_iff.2 ⟨mid, h, h'⟩

/-- What covers a range depends on the function there. -/
theorem congr (h : Paints f lo l hi) (hfg : ∀ b, lo ≤ b → b < hi → g b = f b) :
    Paints g lo l hi := by
  induction l generalizing lo with
  | nil => exact h
  | cons s l ih =>
    obtain ⟨hlo, hlt, hf, hl⟩ := h
    refine ⟨hlo, hlt, fun b hb hb' => ?_, ih hl fun b hb hb' => hfg b (hlt.le.trans hb) hb'⟩
    rw [hfg b hb (hb'.trans_le hl.le), hf b hb hb']

theorem mem {s : Interval α} (h : Paints f lo l hi) (hs : s ∈ l) :
    lo ≤ s.lo ∧ s.lo < s.hi ∧ s.hi ≤ hi ∧ ∀ b, s.lo ≤ b → b < s.hi → f b = s.state := by
  induction l generalizing lo with
  | nil => cases hs
  | cons t l ih =>
    obtain ⟨rfl, hlt, hf, hl⟩ := h
    rcases List.mem_cons.1 hs with rfl | hs
    · exact ⟨le_rfl, hlt, hl.le, hf⟩
    · obtain ⟨h₁, h₂⟩ := ih hl hs
      exact ⟨hlt.le.trans h₁, h₂⟩

/-- Every position is in one of the intervals. -/
theorem exists_mem (h : Paints f lo l hi) {b : ℕ} (hb : lo ≤ b) (hb' : b < hi) :
    ∃ s ∈ l, s.lo ≤ b ∧ b < s.hi := by
  induction l generalizing lo with
  | nil => exact absurd (hb.trans_lt hb') h.not_lt
  | cons t l ih =>
    obtain ⟨rfl, -, -, hl⟩ := h
    rcases lt_or_ge b t.hi with hlt | hge
    · exact ⟨t, List.mem_cons_self, hb, hlt⟩
    · obtain ⟨s, hs, h⟩ := ih hl hge
      exact ⟨s, List.mem_cons_of_mem _ hs, h⟩

/-- In order, and apart. -/
theorem pairwise (h : Paints f lo l hi) : l.Pairwise fun s t => s.hi ≤ t.lo := by
  induction l generalizing lo with
  | nil => exact .nil
  | cons s l ih =>
    obtain ⟨-, -, -, hl⟩ := h
    exact List.pairwise_cons.2 ⟨fun t ht => (hl.mem ht).1, ih hl⟩

/-- Each starts where the one before it ends. -/
theorem isChain (h : Paints f lo l hi) : l.IsChain fun s t => s.hi = t.lo := by
  induction l generalizing lo with
  | nil => exact .nil
  | cons s l ih =>
    obtain ⟨-, -, -, hl⟩ := h
    refine List.isChain_cons.2 ⟨fun t ht => ?_, ih hl⟩
    cases l with
    | nil => cases ht
    | cons u l =>
      obtain rfl : u = t := Option.some_inj.1 ht
      exact hl.1.symm

theorem getLast_hi {s : Interval α} (h : Paints f lo l hi) (hs : s ∈ l.getLast?) : s.hi = hi := by
  obtain ⟨l', rfl⟩ := List.getLast?_eq_some_iff.1 hs
  obtain ⟨mid, -, -, -, -, h⟩ := append_iff.1 h
  exact h

theorem ne_nil (h : Paints f lo l hi) (hlt : lo < hi) : l ≠ [] := by
  rintro rfl
  exact hlt.ne h

end Paints

theorem hi_eq_of_paints {s t : Interval α} (hs : Paints f lo (s :: l) hi)
    (ht : Paints f lo (t :: m) hi) (hl : (s :: l).IsChain Differ) : t.hi ≤ s.hi := by
  by_contra! hlt
  obtain ⟨-, hs₁, hs₂, hs₃⟩ := hs
  obtain ⟨-, ht₁, ht₂, ht₃⟩ := ht
  cases l with
  | nil => exact absurd (hlt.trans_le ht₃.le) (by rw [show s.hi = hi from hs₃]; exact lt_irrefl _)
  | cons u l =>
    obtain ⟨hu, hu₁, hu₂, -⟩ := hs₃
    refine (List.isChain_cons_cons.1 hl).1 ?_
    rw [← hs₂ lo le_rfl hs₁, ← hu₂ s.hi le_rfl hu₁, ht₂ lo le_rfl ht₁, ht₂ s.hi hs₁.le hlt]

/-- **One list of intervals**: where neighbours differ, the function says where they end. -/
theorem eq_of_paints (hl : Paints f lo l hi) (hm : Paints f lo m hi) (hl' : l.IsChain Differ)
    (hm' : m.IsChain Differ) : l = m := by
  induction l generalizing lo m with
  | nil =>
    cases m with
    | nil => rfl
    | cons t m => exact absurd (hm.2.1.trans_le hm.2.2.2.le) (Eq.not_lt hl)
  | cons s l ih =>
    cases m with
    | nil => exact absurd (hl.2.1.trans_le hl.2.2.2.le) (Eq.not_lt hm)
    | cons t m =>
      have hhi : s.hi = t.hi :=
        (hi_eq_of_paints hm hl hm').antisymm (hi_eq_of_paints hl hm hl')
      obtain ⟨hs, hs₁, hs₂, hs₃⟩ := hl
      obtain ⟨ht, ht₁, ht₂, ht₃⟩ := hm
      have hstate : s.state = t.state := by rw [← hs₂ lo le_rfl hs₁, ht₂ lo le_rfl ht₁]
      have htails : l = m := ih hs₃ (hhi ▸ ht₃) hl'.tail hm'.tail
      have hheads : s = t := by
        cases s
        cases t
        simp_all
      rw [hheads, htails]

theorem Paints.before_ne {s : Interval α} (h : Paints f lo l hi) (hd : l.IsChain Differ)
    (hs : s ∈ l) (hlt : lo < s.lo) : f (s.lo - 1) ≠ s.state := by
  obtain ⟨before, after, rfl⟩ := List.append_of_mem hs
  obtain ⟨mid, hbefore, rfl, -⟩ := append_iff.1 h
  obtain ⟨init, t, rfl⟩ :=
    (List.eq_nil_or_concat' before).resolve_left (hbefore.ne_nil hlt)
  have hlast := hbefore.getLast_hi (List.getLast?_concat)
  obtain ⟨-, ht, -, hf⟩ := hbefore.mem (List.mem_append_right _ (List.mem_singleton_self t))
  rw [hf _ (by omega) (by omega)]
  exact (List.isChain_append.1 hd).2.2 t (List.getLast?_concat) s rfl

theorem Paints.after_ne {s : Interval α} (h : Paints f lo l hi) (hd : l.IsChain Differ)
    (hs : s ∈ l) (hlt : s.hi < hi) : f s.hi ≠ s.state := by
  obtain ⟨before, after, rfl⟩ := List.append_of_mem hs
  obtain ⟨mid, -, -, -, -, hafter⟩ := append_iff.1 h
  cases after with
  | nil => exact absurd hafter hlt.ne
  | cons t after =>
    obtain ⟨ht, ht', hf, -⟩ := hafter
    rw [hf _ le_rfl ht']
    exact fun heq => (List.isChain_cons_cons.1 hd.right_of_append).1 heq.symm

/-! ## Joining neighbours -/

variable [DecidableEq α]

/-- Each interval joins the one before it if that is in its state. -/
def joinEqual : Interval α → List (Interval α) → List (Interval α)
  | s, [] => [s]
  | s, t :: l =>
    if s.state = t.state then joinEqual { s with hi := t.hi } l else s :: joinEqual t l

attribute [local simp] joinEqual

theorem paints_joinEqual {s : Interval α} (h : Paints f lo (s :: l) hi) :
    Paints f lo (joinEqual s l) hi := by
  induction l generalizing lo s with
  | nil => exact h
  | cons t l ih =>
    obtain ⟨hs, hs₁, hs₂, ht, ht₁, ht₂, hl⟩ := h
    rw [joinEqual]
    split
    · rename_i heq
      refine ih ⟨hs, hs₁.trans ht₁, fun b hb hb' => ?_, hl⟩
      rcases lt_or_ge b s.hi with hlt | hge
      · exact hs₂ b hb hlt
      · exact (ht₂ b hge hb').trans heq.symm
    · exact ⟨hs, hs₁, hs₂, ih ⟨ht, ht₁, ht₂, hl⟩⟩

theorem head_joinEqual (s : Interval α) (l : List (Interval α)) :
    ∃ t l', joinEqual s l = t :: l' ∧ t.state = s.state ∧ t.lo = s.lo := by
  induction l generalizing s with
  | nil => exact ⟨s, [], rfl, rfl, rfl⟩
  | cons t l ih =>
    rw [joinEqual]
    split
    · obtain ⟨u, l', h, hu, hu'⟩ := ih { s with hi := t.hi }
      exact ⟨u, l', h, hu, hu'⟩
    · exact ⟨s, _, rfl, rfl, rfl⟩

theorem isChain_joinEqual (s : Interval α) (l : List (Interval α)) :
    (joinEqual s l).IsChain Differ := by
  induction l generalizing s with
  | nil => exact .singleton s
  | cons t l ih =>
    rw [joinEqual]
    split
    · exact ih _
    · rename_i hne
      obtain ⟨u, l', h, hu, -⟩ := head_joinEqual t l
      rw [h]
      exact List.isChain_cons_cons.2 ⟨fun he => hne (he.trans hu), h ▸ ih t⟩

theorem getLast_joinEqual (s : Interval α) (l : List (Interval α)) :
    (joinEqual s l).getLast?.map Interval.state = (s :: l).getLast?.map Interval.state := by
  induction l generalizing s with
  | nil => rfl
  | cons t l ih =>
    rw [joinEqual]
    split
    · rename_i heq
      rw [ih, List.getLast?_cons_cons]
      cases l with
      | nil => simp [heq]
      | cons u l => simp
    · obtain ⟨u, l', h, -, -⟩ := head_joinEqual t l
      have := ih t
      rw [h] at this ⊢
      rw [List.getLast?_cons_cons, List.getLast?_cons_cons, this]

end MlirAie.Lib
