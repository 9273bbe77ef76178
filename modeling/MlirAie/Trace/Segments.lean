import Mathlib

/-!
# Segments of a trace buffer

The trace data of several channels shares one buffer, with zero words between.

* **`splitTraceSegments`**: the contiguous non-zero blocks;
* `Segment`, `DataRuns`: what they are meant to be;
* **`splitTraceSegments_dataRuns_iff`**: they are the data runs exactly if the zeros that the buffer
  starts with are as many as a gap has.
-/

namespace MlirAie.Trace

def zeroWord : String := "00000000"

/-! ## The split -/

structure SplitState where
  segments : List (List String)
  current : List String
  zeroRun : List String

variable (minGap : ℕ)

/-- One word: zeros are held back until it is known whether they are a gap. -/
def splitWord (s : SplitState) (pkt : String) : SplitState :=
  if pkt = "" then s
  else if pkt = zeroWord then { s with zeroRun := s.zeroRun ++ [pkt] }
  else if minGap ≤ s.zeroRun.length then
    ⟨if s.current.isEmpty then s.segments else s.segments ++ [s.current], [pkt], []⟩
  else ⟨s.segments, s.current ++ s.zeroRun ++ [pkt], []⟩

def SplitState.finish (s : SplitState) : List (List String) :=
  if s.current.isEmpty then s.segments else s.segments ++ [s.current]

/-- `split_trace_segments`. -/
def splitTraceSegments (tracePkts : List String) : List (List String) :=
  (tracePkts.foldl (splitWord minGap) ⟨[], [], []⟩).finish

/-! ## Data runs -/

def zeros (n : ℕ) : List String := List.replicate n zeroWord

structure Segment (seg : List String) : Prop where
  starts : ∃ w rest, seg = w :: rest ∧ w ≠ zeroWord
  ends : ∃ rest w, seg = rest ++ [w] ∧ w ≠ zeroWord
  short : ¬ zeros minGap <:+: seg

/-- The words are the segments in order, with gaps between them. -/
inductive Spaced : List (List String) → List String → Prop
  | nil : Spaced [] []
  | single (seg : List String) : Spaced [seg] seg
  | cons (seg : List String) {gap : ℕ} {next : List String} {segs : List (List String)}
      {words : List String} (hgap : minGap ≤ gap) (hrest : Spaced (next :: segs) words) :
      Spaced (seg :: next :: segs) (seg ++ zeros gap ++ words)

/-- **The data runs** of a buffer: segments that make it up, with gaps between and zeros around. -/
structure DataRuns (words : List String) (segs : List (List String)) : Prop where
  segments : ∀ seg ∈ segs, Segment minGap seg
  words : ∃ before body after, words = zeros before ++ body ++ zeros after ∧
    Spaced minGap segs body

def wordsOf (tracePkts : List String) : List String := tracePkts.filter (· ≠ "")

/-- How many zeros the words start with. -/
def leadingZeros (words : List String) : ℕ := (words.takeWhile (· = zeroWord)).length

/-- The words start with data, or with a gap, or there is no data. -/
def LeadsWell (words : List String) : Prop :=
  leadingZeros words = 0 ∨ minGap ≤ leadingZeros words ∨ leadingZeros words = words.length

variable {minGap}

/-! ## Runs of equal words -/

/-- A run of equal words is before or behind any other word. -/
theorem replicate_infix {α : Type*} {n : ℕ} {z w : α} {a b : List α} (hw : w ≠ z)
    (h : List.replicate n z <:+: a ++ w :: b) :
    List.replicate n z <:+: a ∨ List.replicate n z <:+: b := by
  rw [List.infix_iff_getElem?] at h
  obtain ⟨k, hk, hget⟩ := h
  simp only [List.length_replicate, List.getElem_replicate, List.length_append,
    List.length_cons] at hk hget
  rcases le_or_gt (n + k) a.length with hle | hgt
  · refine Or.inl (List.infix_iff_getElem?.2 ⟨k, by simpa using hle, fun i hi => ?_⟩)
    rw [List.length_replicate] at hi
    have := hget i hi
    rw [List.getElem?_append_left (by omega)] at this
    rw [this, List.getElem_replicate]
  · have hlt : a.length < k ∨ n = 0 := by
      by_contra hne
      have hmid := hget (a.length - k) (by omega)
      rw [show a.length - k + k = a.length by omega, List.getElem?_append_right le_rfl,
        Nat.sub_self, List.getElem?_cons_zero] at hmid
      exact hw (Option.some_inj.1 hmid)
    rcases hlt with hlt | rfl
    · refine Or.inr (List.infix_iff_getElem?.2 ⟨k - a.length - 1, ?_, fun i hi => ?_⟩)
      · rw [List.length_replicate]
        omega
      · rw [List.length_replicate] at hi
        have := hget i hi
        rw [List.getElem?_append_right (by omega),
          show i + k - a.length = i + (k - a.length - 1) + 1 by omega,
          List.getElem?_cons_succ] at this
        rw [this, List.getElem_replicate]
    · exact Or.inl (by simp)

theorem zeros_append (m n : ℕ) : zeros m ++ zeros n = zeros (m + n) :=
  List.replicate_append_replicate

/-- A word of data is a segment. -/
theorem segment_singleton (hgap : 1 ≤ minGap) {w : String} (hw : w ≠ zeroWord) :
    Segment minGap [w] := by
  refine ⟨⟨w, [], rfl, hw⟩, ⟨[], w, rfl, hw⟩, fun h => ?_⟩
  have hone := replicate_infix (a := []) (b := []) hw h
  rw [or_self, List.infix_nil, List.replicate_eq_nil_iff] at hone
  omega

/-- A short run of zeros and a word of data prolong a segment. -/
theorem Segment.append (hgap : 1 ≤ minGap) {seg : List String} (hseg : Segment minGap seg) {n : ℕ}
    (hn : n < minGap) {w : String} (hw : w ≠ zeroWord) :
    Segment minGap (seg ++ zeros n ++ [w]) := by
  obtain ⟨⟨v, rest, hv, hvz⟩, ⟨front, u, hu, huz⟩, hshort⟩ := hseg
  refine ⟨⟨v, rest ++ zeros n ++ [w], by simp [hv], hvz⟩, ⟨seg ++ zeros n, w, rfl, hw⟩, fun h => ?_⟩
  rcases replicate_infix hw h with h | h
  · rw [hu, List.append_assoc, List.singleton_append] at h
    rcases replicate_infix huz h with h | h
    · exact hshort (hu ▸ h.trans (List.prefix_append front [u]).isInfix)
    · have hlen := h.length_le
      rw [List.length_replicate, zeros, List.length_replicate] at hlen
      omega
  · rw [List.infix_nil, List.replicate_eq_nil_iff] at h
    omega

/-! ## Spaced segments -/

/-- What prolongs the last segment prolongs the words. -/
theorem Spaced.append {segs : List (List String)} {cur words : List String} (x : List String)
    (h : Spaced minGap (segs ++ [cur]) words) :
    Spaced minGap (segs ++ [cur ++ x]) (words ++ x) := by
  induction segs generalizing words with
  | nil =>
    cases h
    exact .single _
  | cons seg segs ih =>
    cases segs with
    | nil =>
      cases h with
      | cons _ hgap hrest =>
        rw [List.append_assoc]
        exact .cons seg hgap (ih hrest)
    | cons next segs =>
      cases h with
      | cons _ hgap hrest =>
        rw [List.append_assoc]
        exact .cons seg hgap (ih hrest)

/-- A gap starts a new segment. -/
theorem Spaced.next {segs : List (List String)} {cur words : List String} {n : ℕ}
    (hn : minGap ≤ n) (x : List String) (h : Spaced minGap (segs ++ [cur]) words) :
    Spaced minGap (segs ++ [cur] ++ [x]) (words ++ zeros n ++ x) := by
  induction segs generalizing words with
  | nil =>
    cases h
    exact .cons cur hn (.single x)
  | cons seg segs ih =>
    cases segs with
    | nil =>
      cases h with
      | cons _ hgap hrest =>
        have h := Spaced.cons seg hgap (ih hrest)
        rwa [← List.append_assoc, ← List.append_assoc] at h
    | cons next segs =>
      cases h with
      | cons _ hgap hrest =>
        have h := Spaced.cons seg hgap (ih hrest)
        rwa [← List.append_assoc, ← List.append_assoc] at h

/-! ## The loop -/

theorem foldl_wordsOf (tracePkts : List String) (s : SplitState) :
    tracePkts.foldl (splitWord minGap) s = (wordsOf tracePkts).foldl (splitWord minGap) s := by
  induction tracePkts generalizing s with
  | nil => rfl
  | cons pkt tracePkts ih =>
    by_cases hpkt : pkt = ""
    · rw [wordsOf, List.filter_cons_of_neg (by simpa using hpkt), List.foldl_cons, ih]
      rw [splitWord, if_pos hpkt]
      rfl
    · rw [wordsOf, List.filter_cons_of_pos (by simpa using hpkt), List.foldl_cons,
        List.foldl_cons, ih]
      rfl

theorem foldl_zeros (n : ℕ) (s : SplitState) :
    (zeros n).foldl (splitWord minGap) s = { s with zeroRun := s.zeroRun ++ zeros n } := by
  induction n generalizing s with
  | zero => simp [zeros]
  | succ n ih =>
    rw [zeros, List.replicate_succ, List.foldl_cons]
    refine (ih _).trans ?_
    rw [splitWord, if_neg (by decide), if_pos rfl]
    simp [zeros]

variable (minGap) in
/-- Behind the first word of data: what was read is the closed segments, the open one, and the
zeros that are held back. -/
structure Running (body : List String) (s : SplitState) : Prop where
  segments : ∀ seg ∈ s.segments ++ [s.current], Segment minGap seg
  body : ∃ words, Spaced minGap (s.segments ++ [s.current]) words ∧ body = words ++ s.zeroRun
  held : ∃ n, s.zeroRun = zeros n

theorem Segment.ne_nil {seg : List String} (h : Segment minGap seg) : seg ≠ [] := by
  obtain ⟨⟨w, rest, rfl, -⟩, -, -⟩ := h
  exact List.cons_ne_nil w rest

theorem Running.splitWord (hgap : 1 ≤ minGap) {body : List String} {s : SplitState} {w : String}
    (hw : w ≠ "") (h : Running minGap body s) :
    Running minGap (body ++ [w]) (splitWord minGap s w) := by
  obtain ⟨hsegs, ⟨words, hspaced, rfl⟩, n, hheld⟩ := h
  have hcur : Segment minGap s.current := hsegs _ (by simp)
  have hempty : s.current.isEmpty = false := by simpa using hcur.ne_nil
  rw [Trace.splitWord, if_neg hw, hempty, if_neg Bool.false_ne_true]
  split_ifs with hzero hlong
  · refine ⟨hsegs, ⟨words, hspaced, List.append_assoc _ _ _⟩, n + 1, ?_⟩
    rw [hheld, hzero, ← zeros_append]
    rfl
  · rw [hheld, zeros, List.length_replicate] at hlong
    refine ⟨?_, ⟨_, hspaced.next hlong [w], ?_⟩, 0, rfl⟩
    · intro seg hseg
      rcases List.mem_append.1 hseg with hseg | hseg
      · exact hsegs seg hseg
      · exact List.mem_singleton.1 hseg ▸ segment_singleton hgap hzero
    · rw [hheld]
      simp
  · rw [hheld, zeros, List.length_replicate, not_le] at hlong
    have hlast := hspaced.append (zeros n ++ [w])
    rw [← List.append_assoc] at hlast
    rw [hheld]
    refine ⟨fun seg hseg => ?_, ⟨_, hlast, ?_⟩, 0, rfl⟩
    · rcases List.mem_append.1 hseg with hseg | hseg
      · exact hsegs seg (List.mem_append_left _ hseg)
      · exact List.mem_singleton.1 hseg ▸ hcur.append hgap hlong hzero
    · simp

theorem Running.foldl (hgap : 1 ≤ minGap) {words body : List String} {s : SplitState}
    (hwords : ∀ w ∈ words, w ≠ "") (h : Running minGap body s) :
    Running minGap (body ++ words) (words.foldl (Trace.splitWord minGap) s) := by
  induction words generalizing body s with
  | nil => simpa using h
  | cons w words ih =>
    have hnext := h.splitWord hgap (hwords w List.mem_cons_self)
    have hrest := ih (fun v hv => hwords v (List.mem_cons_of_mem w hv)) hnext
    rwa [List.append_assoc, List.singleton_append] at hrest

/-- At the end of the input the segments are the data runs. -/
theorem Running.finish {body : List String} {s : SplitState} (before : ℕ)
    (h : Running minGap body s) : DataRuns minGap (zeros before ++ body) s.finish := by
  obtain ⟨hsegs, ⟨words, hspaced, rfl⟩, n, hheld⟩ := h
  have hcur : Segment minGap s.current := hsegs _ (by simp)
  have hempty : s.current.isEmpty = false := by simpa using hcur.ne_nil
  rw [SplitState.finish, hempty, if_neg Bool.false_ne_true]
  exact ⟨hsegs, before, words, n, by rw [hheld, List.append_assoc], hspaced⟩

def StartsWithZero (s : SplitState) : Prop :=
  s.current ≠ [] ∧ ∃ rest segs, s.segments ++ [s.current] = (zeroWord :: rest) :: segs

theorem StartsWithZero.foldl {words : List String} {s : SplitState} (h : StartsWithZero s) :
    StartsWithZero (words.foldl (splitWord minGap) s) := by
  induction words generalizing s with
  | nil => exact h
  | cons w words ih =>
    refine ih ?_
    obtain ⟨hcur, rest, segs, hfirst⟩ := h
    have hempty : s.current.isEmpty = false := by simpa using hcur
    rw [splitWord, hempty, if_neg Bool.false_ne_true]
    split_ifs with hw hzero hlong
    · exact ⟨hcur, rest, segs, hfirst⟩
    · exact ⟨hcur, rest, segs, hfirst⟩
    · refine ⟨List.cons_ne_nil w [], rest, segs ++ [[w]], ?_⟩
      rw [hfirst]
      rfl
    · refine ⟨by simp, ?_⟩
      cases hsegs : s.segments with
      | nil =>
        rw [hsegs] at hfirst
        obtain ⟨hcur', -⟩ := List.cons.inj hfirst
        exact ⟨rest ++ s.zeroRun ++ [w], [], by simp [hcur']⟩
      | cons seg segments =>
        rw [hsegs] at hfirst
        obtain ⟨rfl, -⟩ := List.cons.inj hfirst
        exact ⟨rest, segments ++ [s.current ++ s.zeroRun ++ [w]], rfl⟩

/-! ## The start of the buffer -/

theorem leadingZeros_cases (words : List String) : words = zeros (leadingZeros words) ∨
    ∃ w rest, words = zeros (leadingZeros words) ++ w :: rest ∧ w ≠ zeroWord := by
  have htake : words.takeWhile (· = zeroWord) = zeros (leadingZeros words) :=
    List.eq_replicate_iff.2 ⟨rfl, fun v hv => by simpa using List.mem_takeWhile_imp hv⟩
  have hsplit := @List.takeWhile_append_dropWhile _ (· = zeroWord) words
  rw [htake] at hsplit
  cases hdrop : words.dropWhile (· = zeroWord) with
  | nil =>
    rw [hdrop, List.append_nil] at hsplit
    exact Or.inl hsplit.symm
  | cons w rest =>
    rw [hdrop] at hsplit
    refine Or.inr ⟨w, rest, hsplit.symm, ?_⟩
    have hhead := @List.head_dropWhile_not _ (· = zeroWord) words
      (hdrop ▸ List.cons_ne_nil w rest)
    simpa [hdrop] using hhead

/-- **The segments are the data runs** exactly if the zeros that the buffer starts with are none, or
as many as a gap has, or all that there is. -/
theorem splitTraceSegments_dataRuns_iff (minGap : ℕ) (hgap : 1 ≤ minGap)
    (tracePkts : List String) :
    DataRuns minGap (wordsOf tracePkts) (splitTraceSegments minGap tracePkts) ↔
      LeadsWell minGap (wordsOf tracePkts) := by
  rw [splitTraceSegments, foldl_wordsOf]
  have hne : ∀ w ∈ wordsOf tracePkts, w ≠ "" := fun w hw => by
    simpa using (List.mem_filter.1 hw).2
  generalize wordsOf tracePkts = words at *
  rcases leadingZeros_cases words with hall | ⟨w, rest, hsplit, hw⟩
  · have hlen : leadingZeros words = words.length := by
      rw [congrArg List.length hall, zeros, List.length_replicate]
    refine iff_of_true ?_ (Or.inr (Or.inr hlen))
    have hfold : words.foldl (splitWord minGap) ⟨[], [], []⟩ = ⟨[], [], words⟩ := by
      conv_lhs => rw [hall]
      rw [foldl_zeros, ← hall]
      rfl
    rw [hfold]
    exact ⟨fun seg hseg => absurd hseg List.not_mem_nil,
      leadingZeros words, [], 0, by simpa [zeros] using hall, .nil⟩
  have hlen : leadingZeros words ≠ words.length := by
    intro heq
    have := congrArg List.length hsplit
    rw [← heq, List.length_append, zeros, List.length_replicate, List.length_cons] at this
    omega
  have hiff : LeadsWell minGap words ↔ leadingZeros words = 0 ∨ minGap ≤ leadingZeros words := by
    simp [LeadsWell, hlen]
  have hwne : w ≠ "" := hne w (by rw [hsplit]; simp)
  have hrest : ∀ v ∈ rest, v ≠ "" := fun v hv => hne v (by rw [hsplit]; simp [hv])
  have hfold : words.foldl (splitWord minGap) ⟨[], [], []⟩ = rest.foldl (splitWord minGap)
      (splitWord minGap ⟨[], [], zeros (leadingZeros words)⟩ w) := by
    conv_lhs => rw [hsplit]
    rw [List.foldl_append, foldl_zeros]
    rfl
  rw [hfold, hiff, splitWord, if_neg hwne, if_neg hw]
  by_cases hwell : leadingZeros words = 0 ∨ minGap ≤ leadingZeros words
  · refine iff_of_true ?_ hwell
    have hstart : Running minGap [w] ⟨[], [w], []⟩ := by
      refine ⟨fun seg hseg => ?_, ⟨[w], .single [w], rfl⟩, 0, rfl⟩
      exact List.mem_singleton.1 hseg ▸ segment_singleton hgap hw
    have hrun := (hstart.foldl hgap hrest).finish (leadingZeros words)
    rw [List.singleton_append, ← hsplit] at hrun
    by_cases hlong : minGap ≤ leadingZeros words
    · rw [if_pos (by simpa [zeros] using hlong)]
      exact hrun
    · rw [if_neg (by simpa [zeros] using hlong)]
      have hnone : zeros (leadingZeros words) = [] := by
        rw [hwell.resolve_right hlong]
        rfl
      rw [hnone]
      exact hrun
  · refine iff_of_false (fun hruns => ?_) hwell
    obtain ⟨hpos, hshort⟩ := not_or.1 hwell
    rw [if_neg (by simpa [zeros] using hshort)] at hruns
    have hstart : StartsWithZero ⟨[], zeros (leadingZeros words) ++ [w], []⟩ := by
      obtain ⟨m, hm⟩ := Nat.exists_eq_succ_of_ne_zero hpos
      refine ⟨by simp, List.replicate m zeroWord ++ [w], [], ?_⟩
      simp [zeros, hm, List.replicate_succ]
    obtain ⟨hcur, front, segs, hfirst⟩ := @StartsWithZero.foldl minGap rest _ hstart
    have hruns : DataRuns minGap words (rest.foldl (splitWord minGap)
      ⟨[], zeros (leadingZeros words) ++ [w], []⟩).finish := hruns
    rw [SplitState.finish, if_neg (by simpa using hcur), hfirst] at hruns
    obtain ⟨⟨v, back, hv, hvz⟩, -, -⟩ := hruns.segments _ List.mem_cons_self
    exact hvz (List.cons.inj hv).1.symm

theorem leadingGap_dataRuns : DataRuns 2 (wordsOf ["00000000", "", "00000000", "deadbeef"])
      (splitTraceSegments 2 ["00000000", "", "00000000", "deadbeef"]) ↔
    LeadsWell 2 (wordsOf ["00000000", "", "00000000", "deadbeef"]) :=
  splitTraceSegments_dataRuns_iff 2 (by omega) _

/-- A stray zero at the start of the buffer starts the segment. -/
theorem strayZero_not_dataRuns :
    splitTraceSegments 8 ["00000000", "deadbeef"] = [["00000000", "deadbeef"]] ∧
      ¬ DataRuns 8 (wordsOf ["00000000", "deadbeef"])
        (splitTraceSegments 8 ["00000000", "deadbeef"]) := by
  have heq : splitTraceSegments 8 ["00000000", "deadbeef"] = [["00000000", "deadbeef"]] := by
    decide
  refine ⟨heq, fun hruns => ?_⟩
  rw [heq] at hruns
  obtain ⟨⟨v, back, hv, hvz⟩, -, -⟩ := hruns.segments _ List.mem_cons_self
  exact hvz (List.cons.inj hv).1.symm

end MlirAie.Trace
