import MlirAie.Lib.Fresh
import MlirAie.Lib.Text

/-!
# File names and paths of a checkpoint

Texts and paths are lists of characters. `filename` and `append` follow `llvm::sys::path` for the POSIX
style, without network roots (`//net`).

* `IsName`: a component that names an entry of a directory;
* `uniqueName`: the loop of the serializers that prefixes a number until the name is unused;
* **`uniqueNames_nodup`**: the names given to a list of items are distinct.
-/

namespace MlirAie.Checkpoint

open MlirAie.Lib

abbrev Text := List Char

abbrev Path := Text

def lastComponent (p : Path) : Path := (p.reverse.takeWhile (· != '/')).reverse

/-- `sys::path::filename`: `.` after a trailing separator, `/` for the root. -/
def filename (p : Path) : Path :=
  if p = [] then []
  else if p.getLast? = some '/' then if p.all (· == '/') then ['/'] else ['.']
  else lastComponent p

/-- `sys::path::append` of one component. -/
def append (path c : Path) : Path :=
  if path.getLast? = some '/' then path ++ c.dropWhile (· == '/')
  else if c.head? = some '/' ∨ path = [] then path ++ c
  else path ++ '/' :: c

def IsName (n : Path) : Prop := n ≠ [] ∧ n ≠ ['.'] ∧ n ≠ ['.', '.'] ∧ '/' ∉ n

instance (n : Path) : Decidable (IsName n) := by unfold IsName; infer_instance

/-! ## File names -/

theorem not_isName_nil : ¬ IsName [] := fun h => h.1 rfl

theorem head_ne_sep {n : Path} (h : '/' ∉ n) : n.head? ≠ some '/' := by
  intro hh
  cases n with
  | nil => cases hh
  | cons c n =>
    obtain rfl := Option.some.inj hh
    exact h List.mem_cons_self

theorem lastComponent_append (x rel : Path) :
    lastComponent (x ++ '/' :: rel) = lastComponent rel := by
  have h (l s : List Char) :
      (l ++ '/' :: s).takeWhile (· != '/') = l.takeWhile (· != '/') := by
    induction l with
    | nil => rfl
    | cons c l ih =>
      rw [List.cons_append, List.takeWhile_cons, List.takeWhile_cons, ih]
  unfold lastComponent
  rw [List.reverse_append, List.reverse_cons, List.append_assoc]
  exact congrArg List.reverse (h rel.reverse x.reverse)

theorem filename_of_getLast {p : Path} (hp : p ≠ []) (h : p.getLast? ≠ some '/') :
    filename p = lastComponent p := by
  rw [filename, if_neg hp, if_neg h]

theorem getLast_of_isName {p : Path} (h : IsName (filename p)) :
    p ≠ [] ∧ p.getLast? ≠ some '/' := by
  constructor
  · rintro rfl
    exact not_isName_nil h
  · intro hl
    rw [filename, if_neg (by rintro rfl; cases hl), if_pos hl] at h
    by_cases ha : p.all (· == '/') = true
    · rw [if_pos ha] at h
      exact h.2.2.2 List.mem_cons_self
    · rw [if_neg ha] at h
      exact h.2.1 rfl

theorem getLast_append_sep (x : Path) {rel : Path} (h : rel ≠ []) :
    (x ++ '/' :: rel).getLast? = rel.getLast? := by
  rw [List.getLast?_append, List.getLast?_cons]
  cases hr : rel.getLast? with
  | none => exact absurd (List.getLast?_eq_none_iff.1 hr) h
  | some c => rfl

theorem isName_filename_sep (x rel : Path) :
    IsName (filename (x ++ '/' :: rel)) ↔ IsName (filename rel) := by
  by_cases hr : rel = []
  · subst hr
    constructor
    · intro h
      refine absurd ?_ (getLast_of_isName h).2
      rw [List.getLast?_append, List.getLast?_cons]
      rfl
    · exact fun h => absurd h not_isName_nil
  · have hl := getLast_append_sep x hr
    by_cases hs : rel.getLast? = some '/'
    · exact ⟨fun h => absurd (hl.trans hs) (getLast_of_isName h).2,
        fun h => absurd hs (getLast_of_isName h).2⟩
    · rw [filename_of_getLast (by simp) (by rwa [hl]), lastComponent_append,
        filename_of_getLast hr hs]

theorem filename_isName {n : Path} (h : IsName n) : filename n = n := by
  have hn : ∀ c ∈ n.reverse, (c != '/') = true := by
    intro c hc
    rw [bne_iff_ne]
    rintro rfl
    exact h.2.2.2 (List.mem_reverse.1 hc)
  have hl : n.getLast? ≠ some '/' := fun hl => h.2.2.2 (List.mem_of_getLast? hl)
  rw [filename_of_getLast h.1 hl, lastComponent, List.takeWhile_eq_self_iff.2 hn,
    List.reverse_reverse]

theorem append_eq {dir c : Path} (hd : IsName (filename dir)) (hc : c.head? ≠ some '/') :
    append dir c = dir ++ '/' :: c := by
  obtain ⟨hne, hl⟩ := getLast_of_isName hd
  rw [append, if_neg hl, if_neg (by rintro (h | h); exacts [hc h, hne h])]

/-- Every name is below the directory. -/
theorem append_below {dir : Path} (hd : IsName (filename dir)) (n : Path) :
    ∃ m, append dir n = dir ++ '/' :: m := by
  by_cases hn : n.head? = some '/'
  · cases n with
    | nil => cases hn
    | cons c n =>
      rw [append, if_neg (getLast_of_isName hd).2, if_pos (Or.inl hn), Option.some.inj hn]
      exact ⟨n, rfl⟩
  · exact ⟨n, append_eq hd hn⟩

theorem append_inj {dir m n : Path} (hd : IsName (filename dir)) (hm : '/' ∉ m) (hn : '/' ∉ n)
    (h : append dir m = append dir n) : m = n := by
  rw [append_eq hd (head_ne_sep hm), append_eq hd (head_ne_sep hn)] at h
  exact (List.cons.inj (List.append_cancel_left h)).2

/-! ## Unique names -/

/-- The candidates of the loop: the base, then the base after `1_`, `2_`, …. -/
def candidate (base : Path) : ℕ → Path
  | 0 => base
  | i + 1 => (toString (i + 1)).toList ++ '_' :: base

/-- `for (i = 1; !used.insert(name).second; ++i) name = to_string(i) + "_" + base`. -/
def uniqueName (used : List Path) (base : Path) : Path := firstFresh (candidate base) used

theorem candidate_injective (base : Path) : Function.Injective (candidate base) := by
  have hlen (i : ℕ) : base.length < (candidate base (i + 1)).length := by
    simp only [candidate, List.length_append, List.length_cons]
    omega
  intro i j h
  cases i with
  | zero =>
    cases j with
    | zero => rfl
    | succ j => exact absurd (congrArg List.length h) (hlen j).ne
  | succ i =>
    cases j with
    | zero => exact absurd (congrArg List.length h) (hlen i).ne'
    | succ j => exact Nat.repr_injective (String.toList_inj.1 (List.append_cancel_right h))

theorem candidate_isName {base : Path} (h : '/' ∉ base) (i : ℕ) :
    IsName (candidate base (i + 1)) := by
  have hmem : '_' ∈ candidate base (i + 1) :=
    List.mem_append_right _ List.mem_cons_self
  refine ⟨List.ne_nil_of_mem hmem, ?_, ?_, ?_⟩
  · intro he
    rw [he] at hmem
    exact absurd hmem (by decide)
  · intro he
    rw [he] at hmem
    exact absurd hmem (by decide)
  · intro hs
    rcases List.mem_append.1 hs with hs | hs
    · exact not_mem_toString_nat (by decide) (i + 1) hs
    · rcases List.mem_cons.1 hs with hs | hs
      · cases hs
      · exact h hs

theorem uniqueName_not_mem (used : List Path) (base : Path) : uniqueName used base ∉ used :=
  firstFresh_not_mem (candidate_injective base)

theorem uniqueName_no_sep {base : Path} (h : '/' ∉ base) (used : List Path) :
    '/' ∉ uniqueName used base := by
  obtain ⟨k, hk⟩ := firstFresh_exists (candidate base) used
  unfold uniqueName
  rw [hk]
  cases k with
  | zero => exact h
  | succ i => exact (candidate_isName h i).2.2.2

theorem uniqueName_isName {base : Path} (h : IsName base) (used : List Path) :
    IsName (uniqueName used base) := by
  obtain ⟨k, hk⟩ := firstFresh_exists (candidate base) used
  unfold uniqueName
  rw [hk]
  cases k with
  | zero => exact h
  | succ i => exact candidate_isName h.2.2.2 i

/-- The names that a list of bases is stored under, one after the other. -/
def uniqueNames : List Path → List Path → List Path
  | _, [] => []
  | used, base :: bases =>
    uniqueName used base :: uniqueNames (uniqueName used base :: used) bases

theorem uniqueNames_length (used bases : List Path) :
    (uniqueNames used bases).length = bases.length := by
  induction bases generalizing used with
  | nil => rfl
  | cons base bases ih => rw [uniqueNames, List.length_cons, List.length_cons, ih]

theorem uniqueNames_not_mem (used bases : List Path) : ∀ n ∈ uniqueNames used bases, n ∉ used := by
  induction bases generalizing used with
  | nil => exact fun n hn => absurd hn List.not_mem_nil
  | cons base bases ih =>
    intro n hn
    rcases List.mem_cons.1 hn with rfl | hn
    · exact uniqueName_not_mem used base
    · exact fun h => ih _ n hn (List.mem_cons_of_mem _ h)

/-- **Distinct names**: no two items of a node are stored under one name. -/
theorem uniqueNames_nodup (used bases : List Path) : (uniqueNames used bases).Nodup := by
  induction bases generalizing used with
  | nil => exact List.nodup_nil
  | cons base bases ih =>
    exact List.nodup_cons.2
      ⟨fun h => uniqueNames_not_mem _ bases _ h List.mem_cons_self, ih _⟩

theorem uniqueNames_isName {bases : List Path} (h : ∀ b ∈ bases, IsName b) (used : List Path) :
    ∀ n ∈ uniqueNames used bases, IsName n := by
  induction bases generalizing used with
  | nil => exact fun n hn => absurd hn List.not_mem_nil
  | cons base bases ih =>
    intro n hn
    rcases List.mem_cons.1 hn with rfl | hn
    · exact uniqueName_isName (h base List.mem_cons_self) used
    · exact ih (fun b hb => h b (List.mem_cons_of_mem _ hb)) _ n hn

theorem uniqueNames_nil_mem {pre : List Path} (h : ∀ b ∈ pre, IsName b) (post : List Path)
    {used : List Path} (hu : [] ∉ used) :
    (uniqueNames used (pre ++ [] :: post))[pre.length]? = some [] := by
  induction pre generalizing used with
  | nil =>
    rw [List.nil_append, uniqueNames]
    exact congrArg some (firstFresh_eq_zero hu)
  | cons base pre ih =>
    rw [List.cons_append, uniqueNames, List.length_cons, List.getElem?_cons_succ]
    apply ih (fun b hb => h b (List.mem_cons_of_mem _ hb))
    rw [List.mem_cons, not_or]
    exact ⟨fun hn => not_isName_nil (hn ▸ uniqueName_isName (h base List.mem_cons_self) used), hu⟩

example : uniqueNames [] ["a".toList, "a".toList, [], [], "1_a".toList] =
    ["a".toList, "1_a".toList, [], "1_".toList, "1_1_a".toList] := by decide

end MlirAie.Checkpoint
