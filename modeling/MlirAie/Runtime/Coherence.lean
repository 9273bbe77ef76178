import MlirAie.Lib.Intervals

/-!
# The coherence map

Where each byte of an allocation lives: on the host or on the device. The map keeps the ranges in
one state, where each ends, and the state of the whole when there is only one.

* **`set_holds`**: recording a state overwrites the function, also where it raises;
* **`coherence_bytewise`**: such a map is the map of bytes;
* **`set_unchanged_iff`**: a rejected call changes nothing exactly if there was nothing to change.
-/

namespace MlirAie.Runtime

open Lib

/-- `HOST` and `DEVICE`. -/
inductive Residency
  | host
  | device
deriving DecidableEq

/-- `[lo, hi, state]`. -/
abbrev Span := Interval Residency

/-- `_CoherenceMap`. -/
structure CoherenceMap where
  spans : List Span
  ends : List ℕ
  granule : ℕ
  uniform : Option Residency
deriving DecidableEq

/-- What a `set` raises: an index past the spans, a granule of zero, or a boundary that is not on
the granule (one of these edges is named). -/
inductive SetError
  | indexError
  | zeroDivisionError
  | valueError (edges : List ℕ)
deriving DecidableEq

def bisectRight (items : List ℕ) (x : ℕ) : ℕ := (items.takeWhile (· ≤ x)).length

def bisectLeft (items : List ℕ) (x : ℕ) : ℕ := (items.takeWhile (· < x)).length

namespace CoherenceMap

/-- `__init__`. -/
def init (nbytes : ℕ) (state : Residency) (granule : ℕ) : CoherenceMap where
  spans := [⟨0, nbytes, state⟩]
  ends := [nbytes]
  granule := granule
  uniform := some state

/-- The range, the part of the first span before it, and the part of the last one after it. -/
def pieces (head tail : Span) (start stop : ℕ) (state : Residency) : List Span :=
  (if head.lo < start then [⟨head.lo, start, head.state⟩] else []) ++
    ([⟨start, stop, state⟩] ++ if stop < tail.hi then [⟨stop, tail.hi, tail.state⟩] else [])

/-- The spans that take the place of those the range touches. -/
def replacement (spans : List Span) (first last start stop : ℕ) (state : Residency) :
    Option (List Span) :=
  if first < last then do
    let head ← spans[first]?
    let tail ← spans[last - 1]?
    some (pieces head tail start stop state)
  else some [⟨start, stop, state⟩]

def mergeBefore : List Span → ℕ → List Span → ℕ × List Span
  | neighbour :: before, first, r :: rs =>
    if neighbour.state = r.state then
      mergeBefore before (first - 1) ({ r with lo := neighbour.lo } :: rs)
    else (first, r :: rs)
  | _, first, rs => (first, rs)

def mergeAfter : List Span → ℕ → List Span → ℕ × List Span
  | neighbour :: after, last, rs =>
    match rs.getLast? with
    | some r =>
      if neighbour.state = r.state then
        mergeAfter after (last + 1) (rs.dropLast ++ [{ r with hi := neighbour.hi }])
      else (last, rs)
    | none => (last, rs)
  | [], last, rs => (last, rs)

def mergeInner : List Span → List Span
  | [] => []
  | r :: rs => joinEqual r rs

/-- `_check_granule`: the edges are those of the rewritten block. -/
def checkGranule (m : CoherenceMap) (merged : List Span) : Option SetError :=
  let edges := (merged.head?.map Interval.lo).toList ++ merged.map Interval.hi
  let endOfBuffer := (m.spans.getLast?.map Interval.hi).getD 0
  let inner := edges.filter fun edge => edge ≠ 0 ∧ edge ≠ endOfBuffer
  if m.granule = 0 ∧ inner ≠ [] then some .zeroDivisionError
  else if inner.any fun edge => edge % m.granule ≠ 0 then
    some (.valueError (inner.filter fun edge => edge % m.granule ≠ 0))
  else none

/-- The part of the spans that a `set` rewrites, and what it becomes. -/
def rewrite (m : CoherenceMap) (start stop : ℕ) (state : Residency) :
    Option (ℕ × ℕ × List Span) :=
  let first := bisectRight m.ends start
  let last := bisectLeft m.ends stop + 1
  (replacement m.spans first last start stop state).map fun replaced =>
    let before := mergeBefore (m.spans.take first).reverse first replaced
    let after := mergeAfter (m.spans.drop last) last before.2
    (before.1, after.1, mergeInner after.2)

/-- The whole allocation in one state, or none. -/
def single : List Span → Option Residency
  | [s] => some s.state
  | _ => none

/-- `set`: the map after the call, and what the call raises. -/
def set (m : CoherenceMap) (start stop : ℕ) (state : Residency) :
    CoherenceMap × Option SetError :=
  if stop ≤ start then (m, none)
  else match m.rewrite start stop state with
    | none => (m, some .indexError)
    | some (first, last, merged) =>
      let m' := { m with
        spans := m.spans.take first ++ merged ++ m.spans.drop last
        ends := m.ends.take first ++ merged.map Interval.hi ++ m.ends.drop last }
      match m'.checkGranule merged with
      | some e => (m', some e)
      | none => ({ m' with uniform := single m'.spans }, none)

def meeting (m : CoherenceMap) (start stop : ℕ) : List Span :=
  m.spans.filter fun s => s.lo < stop && start < s.hi

def get (m : CoherenceMap) (start stop : ℕ) : Option Residency :=
  match m.uniform with
  | some state => some state
  | none =>
    match ((m.meeting start stop).map Interval.state).dedup with
    | [state] => some state
    | _ => none

/-- `any_host_written`. -/
def anyHostWritten (m : CoherenceMap) (start stop : ℕ) : Bool :=
  match m.uniform with
  | some state => state = .host
  | none => (m.meeting start stop).any fun s => s.state = .host

def ranges (m : CoherenceMap) (start stop : ℕ) (state : Residency) : List (ℕ × ℕ) :=
  ((m.spans.filter fun s => s.state = state && s.lo < stop && start < s.hi).map
    fun s => (max s.lo start, min s.hi stop))

/-! ## What a map holds -/

/-- The state is recorded for the range. -/
def overwrite (f : ℕ → Residency) (start stop : ℕ) (state : Residency) (b : ℕ) : Residency :=
  if start ≤ b ∧ b < stop then state else f b

/-- The spans are the ranges of the function in one state, and the ends are theirs. -/
structure Holds (m : CoherenceMap) (nbytes : ℕ) (f : ℕ → Residency) : Prop where
  paints : Paints f 0 m.spans nbytes
  differ : m.spans.IsChain Differ
  ends : m.ends = m.spans.map Interval.hi

/-- The last span a range touches. -/
theorem exists_tail {f : ℕ → Residency} {spans : List Span} {lo nbytes stop : ℕ}
    (h : Paints f lo spans nbytes) (hlo : lo < stop) (hstop : stop ≤ nbytes) :
    ∃ block tail after, spans = block ++ tail :: after ∧
      bisectLeft (spans.map Interval.hi) stop = block.length ∧ tail.lo < stop ∧ stop ≤ tail.hi := by
  induction spans generalizing lo with
  | nil => exact absurd (hlo.trans_le hstop) (Eq.not_lt h)
  | cons s spans ih =>
    obtain ⟨rfl, hs, -, h⟩ := h
    rcases lt_or_ge s.hi stop with hlt | hge
    · obtain ⟨block, tail, after, rfl, hlength, htail⟩ := ih h hlt
      refine ⟨s :: block, tail, after, rfl, ?_, htail⟩
      rw [bisectLeft] at hlength ⊢
      rw [List.map_cons, List.takeWhile_cons_of_pos (by simpa using hlt), List.length_cons,
        List.length_cons, hlength]
    · refine ⟨[], s, spans, rfl, ?_, hlo, hge⟩
      rw [bisectLeft, List.map_cons, List.takeWhile_cons_of_neg (by simpa using hge)]
      rfl

/-- **The spans a range touches** are found by the two searches. -/
theorem exists_block {f : ℕ → Residency} {spans : List Span} {lo nbytes start stop : ℕ}
    (h : Paints f lo spans nbytes) (hlo : lo ≤ start) (hlt : start < stop)
    (hstop : stop ≤ nbytes) :
    ∃ before block after head tail,
      spans = before ++ block ++ after ∧
      bisectRight (spans.map Interval.hi) start = before.length ∧
      bisectLeft (spans.map Interval.hi) stop + 1 = (before ++ block).length ∧
      block.head? = some head ∧ block.getLast? = some tail ∧
      head.lo ≤ start ∧ start < head.hi ∧ tail.lo < stop ∧ stop ≤ tail.hi := by
  induction spans generalizing lo with
  | nil => exact absurd (hlo.trans_lt (hlt.trans_le hstop)) (Eq.not_lt h)
  | cons s spans ih =>
    rcases le_or_gt s.hi start with hle | hgt
    · obtain ⟨-, -, -, h⟩ := h
      obtain ⟨before, block, after, head, tail, rfl, hfirst, hlast, hblock⟩ := ih h hle
      refine ⟨s :: before, block, after, head, tail, rfl, ?_, ?_, hblock⟩
      · rw [bisectRight] at hfirst ⊢
        rw [List.map_cons, List.takeWhile_cons_of_pos (by simpa using hle), List.length_cons,
          List.length_cons, hfirst]
      · rw [bisectLeft] at hlast ⊢
        rw [List.map_cons, List.takeWhile_cons_of_pos (by simpa using hle.trans_lt hlt),
          List.length_cons, List.cons_append, List.length_cons, hlast]
    · obtain ⟨block, tail, after, heq, hlast, htail⟩ := exists_tail h (hlo.trans_lt hlt) hstop
      refine ⟨[], block ++ [tail], after, s, tail, by simpa using heq, ?_, ?_, ?_, by simp, ?_, hgt,
        htail⟩
      · rw [bisectRight, List.map_cons, List.takeWhile_cons_of_neg (by simpa using hgt)]
        rfl
      · rw [hlast]
        simp
      · cases block with
        | nil => exact congrArg some (List.cons.inj heq).1.symm
        | cons t block => exact congrArg some (List.cons.inj heq).1.symm
      · exact h.1.trans_le hlo

section Merge

variable {g : ℕ → Residency} {nbytes x y : ℕ}

theorem replacement_eq {before block after : List Span} {head tail : Span}
    (hhead : block.head? = some head) (htail : block.getLast? = some tail) (start stop : ℕ)
    (state : Residency) :
    replacement (before ++ block ++ after) before.length (before ++ block).length start stop
      state = some (pieces head tail start stop state) := by
  have hne : block ≠ [] := by
    rintro rfl
    cases hhead
  have hpos := List.length_pos_iff.2 hne
  have hfirst : (before ++ block ++ after)[before.length]? = some head := by
    rw [List.append_assoc, List.getElem?_append_right le_rfl, Nat.sub_self,
      List.getElem?_append_left hpos, ← List.head?_eq_getElem?, hhead]
  have hlast : (before ++ block ++ after)[(before ++ block).length - 1]? = some tail := by
    rw [List.getElem?_append_left (by rw [List.length_append]; omega), ← List.getLast?_eq_getElem?,
      List.getLast?_append_of_ne_nil _ hne, htail]
  rw [replacement, if_pos (by simpa using hpos), hfirst, hlast]
  rfl

theorem pieces_ne_nil (head tail : Span) (start stop : ℕ) (state : Residency) :
    pieces head tail start stop state ≠ [] := by
  simp [pieces]

/-- The pieces are the block with the state recorded. -/
theorem paints_pieces {f : ℕ → Residency} {block : List Span} {head tail : Span} {start stop : ℕ}
    (state : Residency) (h : Paints f x block y) (hhead : block.head? = some head)
    (htail : block.getLast? = some tail) (hlo : head.lo ≤ start) (hlo' : start < head.hi)
    (hhi : tail.lo < stop) (hhi' : stop ≤ tail.hi) (hlt : start < stop) :
    Paints (overwrite f start stop state) x (pieces head tail start stop state) y := by
  obtain ⟨-, -, -, hheadf⟩ := h.mem (List.mem_of_head? hhead)
  obtain ⟨-, -, -, htailf⟩ := h.mem (List.mem_of_getLast? htail)
  have hx : head.lo = x := by
    cases block with
    | nil => cases hhead
    | cons s block =>
      obtain rfl : s = head := Option.some_inj.1 hhead
      exact h.1
  have hy : tail.hi = y := h.getLast_hi htail
  subst hx hy
  refine Paints.append_iff.2 ⟨start, ?_, Paints.append_iff.2 ⟨stop, ?_, ?_⟩⟩
  · split
    · rename_i hb
      refine .singleton hb fun b hb hb' => ?_
      rw [overwrite, if_neg (by omega), hheadf b hb (by omega)]
    · exact hlo.antisymm (not_lt.1 ‹_›)
  · exact .singleton hlt fun b hb hb' => if_pos ⟨hb, hb'⟩
  · split
    · rename_i hb
      refine .singleton hb fun b hb hb' => ?_
      rw [overwrite, if_neg (by omega), htailf b (by omega) hb']
    · exact hhi'.antisymm (not_lt.1 ‹_›)

theorem mergeBefore_spec {before replaced : List Span} (hb : Paints g 0 before.reverse x)
    (hr : Paints g x replaced y) (hne : replaced ≠ []) (hd : before.reverse.IsChain Differ) :
    ∃ kept merged mid,
      mergeBefore before before.length replaced = (kept.length, merged) ∧
      before.reverse.take kept.length = kept ∧ merged ≠ [] ∧ Paints g 0 kept mid ∧
      Paints g mid merged y ∧ (kept ++ merged.head?.toList).IsChain Differ := by
  induction before generalizing x replaced with
  | nil =>
    cases replaced with
    | nil => exact absurd rfl hne
    | cons r rs => exact ⟨[], r :: rs, x, rfl, rfl, hne, hb, hr, .singleton r⟩
  | cons neighbour before ih =>
    cases replaced with
    | nil => exact absurd rfl hne
    | cons r rs =>
      rw [List.reverse_cons] at hb hd
      obtain ⟨mid, hb', rfl, hlt, hf, rfl⟩ := Paints.append_iff.1 hb
      rw [mergeBefore]
      split
      · rename_i heq
        obtain ⟨hlo, hlt', hf', hrs⟩ := hr
        have hmerged : Paints g neighbour.lo ({ r with lo := neighbour.lo } :: rs) y := by
          refine ⟨rfl, hlt.trans hlt', fun b hb hb' => ?_, hrs⟩
          rcases lt_or_ge b neighbour.hi with h | h
          · exact (hf b hb h).trans heq
          · exact hf' b h hb'
        obtain ⟨kept, merged, mid, h, htake, hrest⟩ := ih hb' hmerged (by simp) hd.left_of_append
        refine ⟨kept, merged, mid, h, ?_, hrest⟩
        rw [List.reverse_cons, List.take_append_of_le_length, htake]
        rw [← htake, List.length_take]
        exact min_le_right _ _
      · rename_i hdiffer
        refine ⟨before.reverse ++ [neighbour], r :: rs, _, by simp, by simp, hne, hb, hr, ?_⟩
        refine List.isChain_append.2 ⟨hd, .singleton r, ?_⟩
        simp only [List.getLast?_concat, Option.mem_some_iff, List.head?_cons]
        rintro _ rfl _ ⟨⟩
        exact hdiffer

theorem mergeAfter_spec {replaced after : List Span} (last : ℕ) (hr : Paints g x replaced y)
    (ha : Paints g y after nbytes) (hne : replaced ≠ []) (hd : after.IsChain Differ) :
    ∃ dropped kept merged mid,
      mergeAfter after last replaced = (last + dropped.length, merged) ∧
      after = dropped ++ kept ∧ merged ≠ [] ∧ Paints g x merged mid ∧ Paints g mid kept nbytes ∧
      (merged.getLast?.toList ++ kept).IsChain Differ ∧
      merged.head?.map Interval.state = replaced.head?.map Interval.state := by
  induction after generalizing last y replaced with
  | nil =>
    refine ⟨[], [], replaced, y, rfl, rfl, hne, hr, ha, ?_, rfl⟩
    cases replaced.getLast? <;> simp
  | cons neighbour after ih =>
    obtain ⟨init, r, rfl⟩ := (List.eq_nil_or_concat' replaced).resolve_left hne
    rw [mergeAfter, List.getLast?_concat, List.dropLast_concat]
    simp only
    split
    · rename_i heq
      obtain ⟨hlo, hlt, hf, ha⟩ := ha
      obtain ⟨lo, hinit, rfl, hlt', hf', rfl⟩ := Paints.append_iff.1 hr
      have hmerged : Paints g x (init ++ [{ r with hi := neighbour.hi }]) neighbour.hi := by
        refine hinit.append ⟨rfl, hlt'.trans hlt, fun b hb hb' => ?_, rfl⟩
        rcases lt_or_ge b r.hi with h | h
        · exact hf' b hb h
        · exact (hf b h hb').trans heq
      obtain ⟨dropped, kept, merged, mid, h, rfl, hne', hm, hk, hchain, hhead⟩ :=
        ih (last + 1) hmerged ha (by simp) hd.tail
      refine ⟨neighbour :: dropped, kept, merged, mid, ?_, rfl, hne', hm, hk, hchain, ?_⟩
      · rw [h, List.length_cons, Nat.add_assoc, Nat.add_comm 1]
      · rw [hhead]
        cases init <;> rfl
    · rename_i hdiffer
      refine ⟨[], neighbour :: after, init ++ [r], y, rfl, rfl, hne, hr, ha, ?_, rfl⟩
      rw [List.getLast?_concat]
      exact List.isChain_cons_cons.2 ⟨fun h => hdiffer h.symm, hd⟩

theorem mergeInner_spec {l : List Span} (hne : l ≠ []) (h : Paints g x l y) :
    mergeInner l ≠ [] ∧ Paints g x (mergeInner l) y ∧ (mergeInner l).IsChain Differ ∧
      (mergeInner l).head?.map Interval.state = l.head?.map Interval.state ∧
      (mergeInner l).getLast?.map Interval.state = l.getLast?.map Interval.state := by
  cases l with
  | nil => exact absurd rfl hne
  | cons r rs =>
    obtain ⟨t, l', heq, hstate, -⟩ := head_joinEqual r rs
    refine ⟨?_, paints_joinEqual h, isChain_joinEqual r rs, ?_, getLast_joinEqual r rs⟩
    · rw [mergeInner, heq]
      exact List.cons_ne_nil _ _
    · rw [mergeInner, heq]
      exact congrArg some hstate

theorem differ_head {kept merged merged' : List Span}
    (h : (kept ++ merged.head?.toList).IsChain Differ)
    (hs : merged'.head?.map Interval.state = merged.head?.map Interval.state) :
    ∀ s ∈ kept.getLast?, ∀ t ∈ merged'.head?, Differ s t := by
  intro s hs' t ht
  rw [Option.mem_def.1 ht, Option.map_some] at hs
  obtain ⟨u, hu, hut⟩ := Option.map_eq_some_iff.1 hs.symm
  have := (List.isChain_append.1 h).2.2 s hs' u (by simp [hu])
  exact fun h => this (h.trans hut.symm)

theorem differ_last {kept merged merged' : List Span}
    (h : (merged.getLast?.toList ++ kept).IsChain Differ)
    (hs : merged'.getLast?.map Interval.state = merged.getLast?.map Interval.state) :
    ∀ s ∈ merged'.getLast?, ∀ t ∈ kept.head?, Differ s t := by
  intro s hs' t ht
  rw [Option.mem_def.1 hs', Option.map_some] at hs
  obtain ⟨u, hu, hus⟩ := Option.map_eq_some_iff.1 hs.symm
  have := (List.isChain_append.1 h).2.2 u (by simp [hu]) t ht
  exact fun h => this (hus.trans h)

end Merge

/-- **The rewritten spans** are those of the function with the state recorded. -/
theorem Holds.rewrite {m : CoherenceMap} {nbytes : ℕ} {f : ℕ → Residency} (h : m.Holds nbytes f)
    {start stop : ℕ} (hlt : start < stop) (hstop : stop ≤ nbytes) (state : Residency) :
    ∃ first last merged, m.rewrite start stop state = some (first, last, merged) ∧ merged ≠ [] ∧
      Paints (overwrite f start stop state) 0 (m.spans.take first ++ merged ++ m.spans.drop last)
        nbytes ∧
      (m.spans.take first ++ merged ++ m.spans.drop last).IsChain Differ := by
  obtain ⟨before, block, after, head, tail, hspans, hfirst, hlast, hhead, htail, hlo, hlo', hhi,
    hhi'⟩ := exists_block h.paints (Nat.zero_le _) hlt hstop
  have hp := h.paints
  have hd := h.differ
  rw [hspans] at hp hd
  obtain ⟨y, hp, hafter⟩ := Paints.append_iff.1 hp
  obtain ⟨x, hbefore, hblock⟩ := Paints.append_iff.1 hp
  have hpieces := paints_pieces state hblock hhead htail hlo hlo' hhi hhi' hlt
  have hx : x ≤ start := (hblock.mem (List.mem_of_head? hhead)).1.trans hlo
  have hy : stop ≤ y := hhi'.trans (hblock.mem (List.mem_of_getLast? htail)).2.2.1
  have hbefore : Paints (overwrite f start stop state) 0 before.reverse.reverse x := by
    rw [List.reverse_reverse]
    exact hbefore.congr fun b _ hb => if_neg (by omega)
  have hafter : Paints (overwrite f start stop state) y after nbytes :=
    hafter.congr fun b hb _ => if_neg (by omega)
  obtain ⟨kept, merged, mid, hb, hkept, hne, hk, hm, hchain⟩ := mergeBefore_spec hbefore hpieces
    (pieces_ne_nil _ _ _ _ _) (by rw [List.reverse_reverse]; exact hd.left_of_append.left_of_append)
  obtain ⟨dropped, kept', merged', mid', ha, rfl, hne', hm', hk', hchain', hheads⟩ :=
    mergeAfter_spec (before ++ block).length hm hafter hne hd.right_of_append
  rw [List.reverse_reverse] at hkept
  have htake : m.spans.take kept.length = kept := by
    rw [hspans, List.append_assoc, List.take_append_of_le_length, hkept]
    rw [← hkept, List.length_take]
    exact min_le_right _ _
  have hdrop : m.spans.drop ((before ++ block).length + dropped.length) = kept' := by
    rw [hspans, ← List.append_assoc, ← List.length_append, List.drop_left]
  obtain ⟨hne, hp, hc, hhead', hlast'⟩ := mergeInner_spec hne' hm'
  refine ⟨kept.length, (before ++ block).length + dropped.length, mergeInner merged', ?_, hne, ?_,
    ?_⟩
  · rw [List.length_reverse] at hb
    rw [CoherenceMap.rewrite, h.ends, hfirst, hlast, hspans, replacement_eq hhead htail,
      List.append_assoc, List.take_left, ← List.append_assoc, List.drop_left]
    simp only [Option.map_some, hb, ha]
  · rw [htake, hdrop]
    exact (hk.append hp).append hk'
  · rw [htake, hdrop]
    have hhead := differ_head hchain (hhead'.trans hheads)
    have hlast := differ_last hchain' hlast'
    refine List.isChain_append.2 ⟨List.isChain_append.2 ⟨hchain.left_of_append, hc, hhead⟩,
      hchain'.right_of_append, ?_⟩
    rwa [List.getLast?_append_of_ne_nil _ hne]

/-- **Recording a state** overwrites the function, also where the boundaries are rejected. -/
theorem Holds.set {m : CoherenceMap} {nbytes : ℕ} {f : ℕ → Residency} (h : m.Holds nbytes f)
    (start : ℕ) {stop : ℕ} (hstop : stop ≤ nbytes) (state : Residency) :
    (m.set start stop state).1.Holds nbytes (overwrite f start stop state) := by
  rw [CoherenceMap.set]
  split
  · rename_i hle
    have : overwrite f start stop state = f := by
      funext b
      exact if_neg (by omega)
    rwa [this]
  · obtain ⟨first, last, merged, heq, -, hp, hd⟩ := h.rewrite (not_le.1 ‹_›) hstop state
    have hends : m.ends.take first ++ merged.map Interval.hi ++ m.ends.drop last =
        (m.spans.take first ++ merged ++ m.spans.drop last).map Interval.hi := by
      rw [h.ends, List.map_append, List.map_append, List.map_take, List.map_drop]
    rw [heq]
    dsimp only
    split
    · exact ⟨hp, hd, hends⟩
    · exact ⟨hp, hd, hends⟩

theorem set_granule (m : CoherenceMap) (start stop : ℕ) (state : Residency) :
    (m.set start stop state).1.granule = m.granule := by
  rw [CoherenceMap.set]
  split
  · rfl
  · split
    · rfl
    · dsimp only
      split <;> rfl

theorem set_uniform_of_error {m : CoherenceMap} {start stop : ℕ} {state : Residency} {e : SetError}
    (h : (m.set start stop state).2 = some e) :
    (m.set start stop state).1.uniform = m.uniform := by
  rw [CoherenceMap.set] at h ⊢
  split
  · rfl
  · split
    · rfl
    · rename_i hlt _ _ _ _ heq
      rw [if_neg hlt, heq] at h
      dsimp only at h ⊢
      split at h
      · simp [*]
      · cases h

theorem holds_init {nbytes : ℕ} (h : 0 < nbytes) (state : Residency) (granule : ℕ) :
    (init nbytes state granule).Holds nbytes fun _ => state :=
  ⟨.singleton h fun _ _ _ => rfl, .singleton _, rfl⟩

/-! ## Maps no call of which raised -/

theorem dvd_of_checkGranule {m : CoherenceMap} {nbytes : ℕ} {merged : List Span}
    (h : m.checkGranule merged = none) (hend : m.spans.getLast?.map Interval.hi = some nbytes)
    {s : Span} (hs : s ∈ merged) (hpos : s.hi ≠ 0) (hne : s.hi ≠ nbytes) : m.granule ∣ s.hi := by
  have hedge : s.hi ∈ ((merged.head?.map Interval.lo).toList ++ merged.map Interval.hi).filter
      fun edge => edge ≠ 0 ∧ edge ≠ (m.spans.getLast?.map Interval.hi).getD 0 := by
    rw [hend]
    exact List.mem_filter.2 ⟨List.mem_append_right _ (List.mem_map_of_mem hs), by simp [hpos, hne]⟩
  rw [checkGranule] at h
  split at h
  · cases h
  · split at h
    · cases h
    · rename_i hany
      rw [List.any_eq_true] at hany
      by_contra hdvd
      exact hany ⟨s.hi, hedge, by simpa [Nat.dvd_iff_mod_eq_zero] using hdvd⟩

/-- The invariant: besides, inner boundaries are on the granule, and the state of the whole is
kept. -/
structure Consistent (m : CoherenceMap) (nbytes : ℕ) (f : ℕ → Residency) : Prop
    extends m.Holds nbytes f where
  boundary : ∀ e ∈ m.ends, e ≠ nbytes → m.granule ∣ e
  uniform : m.uniform = single m.spans

theorem consistent_init {nbytes : ℕ} (h : 0 < nbytes) (state : Residency) (granule : ℕ) :
    (init nbytes state granule).Consistent nbytes fun _ => state where
  toHolds := holds_init h state granule
  boundary _ he hne := absurd (List.mem_singleton.1 he) hne
  uniform := rfl

/-- **A call that does not raise** keeps the invariant. -/
theorem Consistent.set {m : CoherenceMap} {nbytes : ℕ} {f : ℕ → Residency}
    (h : m.Consistent nbytes f) {start stop : ℕ} (hstop : stop ≤ nbytes) {state : Residency}
    (hraise : (m.set start stop state).2 = none) :
    (m.set start stop state).1.Consistent nbytes (overwrite f start stop state) := by
  have hholds := h.toHolds.set start hstop state
  rcases le_or_gt stop start with hle | hlt
  · rw [CoherenceMap.set, if_pos hle] at hholds ⊢
    exact { hholds with boundary := h.boundary, uniform := h.uniform }
  · obtain ⟨first, last, merged, heq, hne, hp, -⟩ := h.toHolds.rewrite hlt hstop state
    rw [CoherenceMap.set, if_neg hlt.not_ge, heq] at hraise hholds ⊢
    dsimp only at hraise hholds ⊢
    split at hraise
    · cases hraise
    · rename_i hcheck
      rw [hcheck] at hholds
      refine { hholds with boundary := fun e he hne' => ?_, uniform := rfl }
      rcases List.mem_append.1 he with he | he
      · rcases List.mem_append.1 he with he | he
        · exact h.boundary e (List.mem_of_mem_take he) hne'
        · obtain ⟨s, hs, rfl⟩ := List.mem_map.1 he
          have hspos := (hp.mem (List.mem_append_left _ (List.mem_append_right _ hs))).2.1
          refine dvd_of_checkGranule hcheck ?_ hs (by omega) hne'
          obtain ⟨t, ht⟩ := Option.isSome_iff_exists.1
            (List.getLast?_isSome.2 (hp.ne_nil (by omega)))
          rw [ht, Option.map_some, hp.getLast_hi ht]
      · exact h.boundary e (List.mem_of_mem_drop he) hne'

theorem Holds.mem_ends {m : CoherenceMap} {nbytes : ℕ} {f : ℕ → Residency}
    (h : m.Holds nbytes f) {e : ℕ} (he : e < nbytes) (hne : f (e - 1) ≠ f e) : e ∈ m.ends := by
  have hpos : 0 < e := Nat.pos_of_ne_zero fun h0 => hne (by rw [h0])
  obtain ⟨s, hs, hlo, hhi⟩ := h.paints.exists_mem (Nat.zero_le (e - 1)) (by omega)
  have hf := (h.paints.mem hs).2.2.2
  rw [h.ends]
  refine List.mem_map.2 ⟨s, hs, ?_⟩
  by_contra hhi'
  exact hne ((hf _ hlo hhi).trans (hf _ (by omega) (by omega)).symm)

theorem checkGranule_eq_none {m : CoherenceMap} {nbytes : ℕ} {merged : List Span}
    (hend : m.spans.getLast?.map Interval.hi = some nbytes)
    (h : ∀ e ∈ (merged.head?.map Interval.lo).toList ++ merged.map Interval.hi, e ≠ 0 →
      e ≠ nbytes → m.granule ∣ e) : m.checkGranule merged = none := by
  have hinner : ∀ e ∈ ((merged.head?.map Interval.lo).toList ++ merged.map Interval.hi).filter
      fun edge => edge ≠ 0 ∧ edge ≠ (m.spans.getLast?.map Interval.hi).getD 0,
      e ≠ 0 ∧ m.granule ∣ e := by
    intro e he
    obtain ⟨he, hne⟩ := List.mem_filter.1 he
    rw [hend, decide_eq_true_eq] at hne
    exact ⟨hne.1, h e he hne.1 hne.2⟩
  rw [checkGranule]
  split
  · rename_i hzero
    obtain ⟨e, he⟩ := List.exists_mem_of_ne_nil _ hzero.2
    obtain ⟨hne, hdvd⟩ := hinner e he
    exact absurd (Nat.eq_zero_of_zero_dvd (hzero.1 ▸ hdvd)) hne
  · split
    · rename_i hany
      obtain ⟨e, he, hmod⟩ := List.any_eq_true.1 hany
      exact absurd (Nat.mod_eq_zero_of_dvd (hinner e he).2) (of_decide_eq_true hmod)
    · rfl

/-- **A range on the granule** is recorded without raising. -/
theorem Consistent.set_eq_none {m : CoherenceMap} {nbytes : ℕ} {f : ℕ → Residency}
    (h : m.Consistent nbytes f) {start stop : ℕ} (hstop : stop ≤ nbytes)
    (hstart : m.granule ∣ start) (hstop' : m.granule ∣ stop ∨ stop = nbytes)
    (state : Residency) : (m.set start stop state).2 = none := by
  rcases le_or_gt stop start with hle | hlt
  · rw [CoherenceMap.set, if_pos hle]
  obtain ⟨first, last, merged, heq, hne, hp, hd⟩ := h.toHolds.rewrite hlt hstop state
  have hedge {e : ℕ} (he : e < nbytes)
      (hdiffer : overwrite f start stop state (e - 1) ≠ overwrite f start stop state e) :
      m.granule ∣ e := by
    rcases eq_or_ne e start with rfl | hne
    · exact hstart
    rcases eq_or_ne e stop with rfl | hne'
    · exact hstop'.resolve_right he.ne
    have hf : f (e - 1) ≠ f e := by
      intro hf
      unfold overwrite at hdiffer
      split_ifs at hdiffer <;> first | exact hdiffer rfl | exact hdiffer hf | omega
    exact h.boundary e (h.toHolds.mem_ends he hf) he.ne
  have hmem {s : Span} (hs : s ∈ merged) :
      s ∈ m.spans.take first ++ merged ++ m.spans.drop last :=
    List.mem_append_left _ (List.mem_append_right _ hs)
  have hcheck : ({ m with
      spans := m.spans.take first ++ merged ++ m.spans.drop last
      ends := m.ends.take first ++ merged.map Interval.hi ++ m.ends.drop last } :
      CoherenceMap).checkGranule merged = none := by
    obtain ⟨t, ht⟩ := Option.isSome_iff_exists.1 (List.getLast?_isSome.2 (hp.ne_nil (by omega)))
    refine checkGranule_eq_none (by rw [ht, Option.map_some, hp.getLast_hi ht]) fun e he h0 hn => ?_
    rcases List.mem_append.1 he with he | he
    · obtain ⟨s, hs, rfl⟩ := Option.map_eq_some_iff.1 (Option.mem_toList.1 he)
      have hs := hmem (List.mem_of_head? hs)
      obtain ⟨-, hlt', hle, hf⟩ := hp.mem hs
      refine hedge (by omega) ?_
      rw [hf s.lo le_rfl hlt']
      exact hp.before_ne hd hs (Nat.pos_of_ne_zero h0)
    · obtain ⟨s, hs, rfl⟩ := List.mem_map.1 he
      have hs := hmem hs
      obtain ⟨-, hlt', hle, hf⟩ := hp.mem hs
      refine hedge (by omega) ?_
      rw [hf (s.hi - 1) (by omega) (by omega)]
      exact (hp.after_ne hd hs (by omega)).symm
  rw [CoherenceMap.set, if_neg hlt.not_ge, heq]
  dsimp only
  rw [hcheck]

/-! ## Queries -/

section Query

variable {m : CoherenceMap} {nbytes start stop : ℕ} {f : ℕ → Residency}

theorem mem_meeting {s : Span} :
    s ∈ m.meeting start stop ↔ s ∈ m.spans ∧ s.lo < stop ∧ start < s.hi := by
  simp [meeting, List.mem_filter]

theorem Holds.exists_meeting_iff (h : m.Holds nbytes f) (hlt : start < stop) (state : Residency) :
    (∃ s ∈ m.meeting start stop, s.state = state) ↔
      ∃ b, start ≤ b ∧ b < stop ∧ b < nbytes ∧ f b = state := by
  constructor
  · rintro ⟨s, hs, rfl⟩
    obtain ⟨hs, hlo, hhi⟩ := mem_meeting.1 hs
    obtain ⟨-, hs₁, hs₂, hf⟩ := h.paints.mem hs
    exact ⟨max s.lo start, by omega, by omega, by omega, hf _ (by omega) (by omega)⟩
  · rintro ⟨b, hb, hb', hn, rfl⟩
    obtain ⟨s, hs, hlo, hhi⟩ := h.paints.exists_mem (Nat.zero_le b) hn
    exact ⟨s, mem_meeting.2 ⟨hs, by omega, by omega⟩, ((h.paints.mem hs).2.2.2 b hlo hhi).symm⟩

theorem Consistent.eq_of_uniform (h : m.Consistent nbytes f) {state : Residency}
    (hu : m.uniform = some state) {b : ℕ} (hb : b < nbytes) : f b = state := by
  obtain ⟨s, hs, hlo, hhi⟩ := h.paints.exists_mem (Nat.zero_le b) hb
  rw [(h.paints.mem hs).2.2.2 b hlo hhi]
  have hsingle := h.uniform.symm.trans hu
  match hspans : m.spans with
  | [] => simp [hspans, single] at hsingle
  | [t] =>
    rw [hspans] at hs hsingle
    rw [List.mem_singleton.1 hs]
    exact Option.some_inj.1 hsingle
  | _ :: _ :: _ => simp [hspans, single] at hsingle

theorem dedup_eq_singleton {states : List Residency} {state : Residency} :
    states.dedup = [state] ↔ state ∈ states ∧ ∀ t ∈ states, t = state := by
  constructor
  · intro h
    have hmem (t : Residency) : t ∈ states ↔ t = state := by
      rw [← List.mem_dedup, h, List.mem_singleton]
    exact ⟨(hmem state).2 rfl, fun t => (hmem t).1⟩
  · rintro ⟨hmem, hall⟩
    have hrep := List.eq_replicate_of_mem fun t ht => hall t (List.mem_dedup.1 ht)
    have hnodup := List.nodup_dedup states
    have hpos := List.length_pos_of_mem (List.mem_dedup.2 hmem)
    rw [hrep] at hnodup ⊢
    rw [show states.dedup.length = 1 by have := List.nodup_replicate.1 hnodup; omega]
    rfl

/-- **`get`** is the state of all bytes of the query. -/
theorem Consistent.get_eq_some_iff (h : m.Consistent nbytes f) (hlt : start < stop)
    (hstart : start < nbytes) {state : Residency} :
    m.get start stop = some state ↔ ∀ b, start ≤ b → b < stop → b < nbytes → f b = state := by
  rw [get]
  split
  · rename_i state' hu
    rw [Option.some_inj]
    constructor
    · rintro rfl b - - hb
      exact h.eq_of_uniform hu hb
    · exact fun hall => (h.eq_of_uniform hu hstart).symm.trans (hall start le_rfl hlt hstart)
  · have hall : ((m.meeting start stop).map Interval.state).dedup = [state] ↔
        ∀ b, start ≤ b → b < stop → b < nbytes → f b = state := by
      simp only [dedup_eq_singleton, List.mem_map, h.exists_meeting_iff hlt]
      constructor
      · exact fun ⟨_, hall⟩ b hb hb' hn => hall (f b) ⟨b, hb, hb', hn, rfl⟩
      · refine fun hall => ⟨⟨start, le_rfl, hlt, hstart, hall start le_rfl hlt hstart⟩, ?_⟩
        rintro _ ⟨b, hb, hb', hn, rfl⟩
        exact hall b hb hb' hn
    rw [← hall]
    split
    · rename_i heq
      rw [heq, Option.some_inj]
      exact ⟨fun h => h ▸ rfl, fun h => (List.cons.inj h).1⟩
    · rename_i hne
      exact ⟨fun h => (Option.some_ne_none _ h.symm).elim, fun h => (hne state h).elim⟩

/-- **`any_host_written`** asks for a byte of the query on the host. -/
theorem Consistent.anyHostWritten_iff (h : m.Consistent nbytes f) (hlt : start < stop)
    (hstart : start < nbytes) :
    m.anyHostWritten start stop = true ↔
      ∃ b, start ≤ b ∧ b < stop ∧ b < nbytes ∧ f b = .host := by
  rw [anyHostWritten]
  split
  · rename_i state hu
    rw [decide_eq_true_iff]
    constructor
    · rintro rfl
      exact ⟨start, le_rfl, hlt, hstart, h.eq_of_uniform hu hstart⟩
    · rintro ⟨b, -, -, hb, hf⟩
      exact (h.eq_of_uniform hu hb).symm.trans hf
  · rw [← h.exists_meeting_iff hlt, List.any_eq_true]
    simp only [decide_eq_true_iff]

structure IsRun (f : ℕ → Residency) (nbytes start stop : ℕ) (state : Residency) (r : ℕ × ℕ) :
    Prop where
  start_le : start ≤ r.1
  lt : r.1 < r.2
  le_stop : r.2 ≤ stop
  le_nbytes : r.2 ≤ nbytes
  inState : ∀ b, r.1 ≤ b → b < r.2 → f b = state
  first : r.1 = start ∨ f (r.1 - 1) ≠ state
  last : r.2 = stop ∨ r.2 = nbytes ∨ f r.2 ≠ state

/-- **`ranges`** are the maximal runs. -/
theorem Holds.mem_ranges_iff (h : m.Holds nbytes f) (hlt : start < stop) {state : Residency}
    {r : ℕ × ℕ} : r ∈ m.ranges start stop state ↔ IsRun f nbytes start stop state r := by
  simp only [ranges, List.mem_map, List.mem_filter, Bool.and_eq_true, decide_eq_true_eq]
  constructor
  · rintro ⟨s, ⟨hs, ⟨rfl, hlo⟩, hhi⟩, rfl⟩
    obtain ⟨-, hs₁, hs₂, hf⟩ := h.paints.mem hs
    refine ⟨le_max_right _ _, ?_, min_le_right _ _, (min_le_left _ _).trans hs₂,
      fun b hb hb' => hf b (by omega) (by omega), ?_, ?_⟩
    · simp only
      omega
    · rcases le_or_gt s.lo start with hle | hgt
      · exact .inl (max_eq_right hle)
      · refine .inr ?_
        rw [max_eq_left hgt.le]
        exact h.paints.before_ne h.differ hs (by omega)
    · rcases le_or_gt stop s.hi with hle | hgt
      · exact .inl (min_eq_right hle)
      · rw [min_eq_left hgt.le]
        rcases hs₂.eq_or_lt with heq | hlt'
        · exact .inr (.inl heq)
        · exact .inr (.inr (h.paints.after_ne h.differ hs hlt'))
  · rintro ⟨hstart, hr, hstop, hn, hin, hfirst, hlast⟩
    obtain ⟨s, hs, hlo, hhi⟩ := h.paints.exists_mem (Nat.zero_le r.1) (hr.trans_le hn)
    obtain ⟨-, hs₁, hs₂, hf⟩ := h.paints.mem hs
    have hstate : s.state = state := (hf _ hlo hhi).symm.trans (hin _ le_rfl hr)
    refine ⟨s, ⟨hs, ⟨hstate, by omega⟩, by omega⟩, Prod.ext ?_ ?_⟩
    · -- the run cannot start inside the span
      by_contra hne
      refine (hfirst.resolve_left (by simp only at hne; omega)) ?_
      rw [hf _ (by simp only at hne; omega) (by omega), hstate]
    · rcases lt_trichotomy (min s.hi stop) r.2 with hlt' | heq | hgt
      · refine absurd ((hin s.hi hhi.le (by omega)).trans hstate.symm) ?_
        exact h.paints.after_ne h.differ hs (by omega)
      · exact heq
      · refine absurd ((hf r.2 (by omega) (by omega)).trans hstate) ?_
        exact (hlast.resolve_left (by omega)).resolve_left (by omega)

theorem Holds.exists_range_iff (h : m.Holds nbytes f) {state : Residency} {b : ℕ} :
    (∃ r ∈ m.ranges start stop state, r.1 ≤ b ∧ b < r.2) ↔
      (start ≤ b ∧ b < stop) ∧ b < nbytes ∧ f b = state := by
  simp only [ranges, List.mem_map, List.mem_filter, Bool.and_eq_true, decide_eq_true_eq]
  constructor
  · rintro ⟨_, ⟨s, ⟨hs, ⟨rfl, -⟩, -⟩, rfl⟩, hlo, hhi⟩
    simp only at hlo hhi
    obtain ⟨-, -, hs', hf⟩ := h.paints.mem hs
    exact ⟨by omega, by omega, hf b (by omega) (by omega)⟩
  · rintro ⟨hb, hn, rfl⟩
    obtain ⟨s, hs, hlo, hhi⟩ := h.paints.exists_mem (Nat.zero_le b) hn
    have hstate := ((h.paints.mem hs).2.2.2 b hlo hhi).symm
    refine ⟨_, ⟨s, ⟨hs, ⟨hstate, by omega⟩, by omega⟩, rfl⟩, ?_, ?_⟩
    · simp only
      omega
    · simp only
      omega

theorem Holds.pairwise_ranges (h : m.Holds nbytes f) (state : Residency) :
    (m.ranges start stop state).Pairwise fun r r' => r.2 ≤ r'.1 := by
  refine List.Pairwise.map _ (fun s t (hst : s.hi ≤ t.lo) => ?_) (h.paints.pairwise.filter _)
  exact (min_le_left _ _).trans (hst.trans (le_max_left _ _))

end Query

/-! ## Sequences of calls -/

/-- The arguments of a `set`. -/
structure Call where
  start : ℕ
  stop : ℕ
  state : Residency
deriving DecidableEq

def setAll (m : CoherenceMap) (calls : List Call) : Option CoherenceMap :=
  calls.foldlM (fun m c =>
    let result := m.set c.start c.stop c.state
    if result.2 = none then some result.1 else none) m

def setAllCaught (m : CoherenceMap) (calls : List Call) : CoherenceMap :=
  calls.foldl (fun m c => (m.set c.start c.stop c.state).1) m

def lastState (state : Residency) (calls : List Call) (b : ℕ) : Residency :=
  ((calls.filter fun c => c.start ≤ b && b < c.stop).getLast?.map Call.state).getD state

theorem lastState_concat (state : Residency) (calls : List Call) (c : Call) :
    lastState state (calls ++ [c]) =
      overwrite (lastState state calls) c.start c.stop c.state := by
  funext b
  rw [lastState, List.filter_append, overwrite]
  split
  · rename_i hb
    rw [List.filter_cons_of_pos (by simpa using hb), List.filter_nil, List.getLast?_concat]
    rfl
  · rename_i hb
    rw [List.filter_cons_of_neg (by simpa using hb), List.filter_nil, List.append_nil, lastState]

theorem consistent_setAll {nbytes granule : ℕ} (hpos : 0 < nbytes) {state : Residency}
    {calls : List Call} (hin : ∀ c ∈ calls, c.stop ≤ nbytes) {m : CoherenceMap}
    (h : (init nbytes state granule).setAll calls = some m) :
    m.Consistent nbytes (lastState state calls) ∧ m.granule = granule := by
  induction calls using List.reverseRecOn generalizing m with
  | nil =>
    obtain rfl : init nbytes state granule = m := Option.some_inj.1 h
    exact ⟨consistent_init hpos state granule, rfl⟩
  | append_singleton calls c ih =>
    rw [List.forall_mem_append, List.forall_mem_singleton] at hin
    rw [setAll, List.foldlM_append] at h
    obtain ⟨m', hm', h⟩ := Option.bind_eq_some_iff.1 h
    obtain ⟨hc, hg⟩ := ih hin.1 hm'
    rw [List.foldlM_cons] at h
    obtain ⟨m'', h, hm''⟩ := Option.bind_eq_some_iff.1 h
    obtain rfl : m'' = m := Option.some_inj.1 hm''
    dsimp only at h
    split at h
    · rename_i hraise
      obtain rfl := Option.some_inj.1 h
      rw [lastState_concat, set_granule]
      exact ⟨hc.set hin.2 hraise, hg⟩
    · cases h

theorem holds_setAllCaught {nbytes granule : ℕ} (hpos : 0 < nbytes) {state : Residency}
    {calls : List Call} (hin : ∀ c ∈ calls, c.stop ≤ nbytes) :
    ((init nbytes state granule).setAllCaught calls).Holds nbytes (lastState state calls) := by
  induction calls using List.reverseRecOn with
  | nil => exact holds_init hpos state granule
  | append_singleton calls c ih =>
    rw [List.forall_mem_append, List.forall_mem_singleton] at hin
    rw [setAllCaught, List.foldl_concat, lastState_concat]
    exact (ih hin.1).set c.start hin.2 c.state

theorem setAll_empty {state : Residency} {granule : ℕ} {calls : List Call}
    (hin : ∀ c ∈ calls, c.stop ≤ 0) :
    (init 0 state granule).setAll calls = some (init 0 state granule) := by
  induction calls with
  | nil => rfl
  | cons c calls ih =>
    rw [List.forall_mem_cons] at hin
    have hset : (init 0 state granule).set c.start c.stop c.state = (init 0 state granule, none) :=
      if_pos (by omega)
    rw [setAll, List.foldlM_cons, hset]
    exact ih hin.2

structure Bytewise (m : CoherenceMap) (nbytes : ℕ) (f : ℕ → Residency) : Prop where
  nonempty : 0 < nbytes → ∀ s ∈ m.spans, s.lo < s.hi
  first : m.spans.head?.map Interval.lo = some 0
  last : m.spans.getLast?.map Interval.hi = some nbytes
  adjacent : m.spans.IsChain fun s t => s.hi = t.lo
  differ : m.spans.IsChain Differ
  ends : m.ends = m.spans.map Interval.hi
  boundary : ∀ e ∈ m.ends, e ≠ nbytes → m.granule ∣ e
  uniform : m.uniform = single m.spans
  get : ∀ start stop state, start < stop → start < nbytes →
    (m.get start stop = some state ↔ ∀ b, start ≤ b → b < stop → b < nbytes → f b = state)
  anyHostWritten : ∀ start stop, start < stop → start < nbytes →
    (m.anyHostWritten start stop = true ↔
      ∃ b, start ≤ b ∧ b < stop ∧ b < nbytes ∧ f b = .host)
  ranges : ∀ start stop state, start < stop → start < nbytes →
    ((m.ranges start stop state).Pairwise fun r r' => r.2 ≤ r'.1) ∧
      ∀ r, r ∈ m.ranges start stop state ↔ IsRun f nbytes start stop state r

theorem Consistent.bytewise {m : CoherenceMap} {nbytes : ℕ} {f : ℕ → Residency}
    (h : m.Consistent nbytes f) (hpos : 0 < nbytes) : m.Bytewise nbytes f where
  nonempty _ s hs := (h.paints.mem hs).2.1
  first := by
    obtain ⟨s, spans, hs⟩ := List.exists_cons_of_ne_nil (h.paints.ne_nil hpos)
    have := h.paints
    rw [hs] at this ⊢
    exact congrArg some this.1
  last := by
    obtain ⟨init, s, hs⟩ := (List.eq_nil_or_concat' m.spans).resolve_left (h.paints.ne_nil hpos)
    have hlast : s ∈ m.spans.getLast? := by rw [hs, List.getLast?_concat]; rfl
    rw [Option.mem_def.1 hlast, Option.map_some, h.paints.getLast_hi hlast]
  adjacent := h.paints.isChain
  differ := h.differ
  ends := h.ends
  boundary := h.boundary
  uniform := h.uniform
  get _ _ _ hlt hstart := h.get_eq_some_iff hlt hstart
  anyHostWritten _ _ := h.anyHostWritten_iff
  ranges _ _ state hlt _ := ⟨h.pairwise_ranges state, fun _ => h.mem_ranges_iff hlt⟩

/-- **The map of the bytes**, after any calls none of which raised. -/
theorem coherence_bytewise (nbytes granule : ℕ) (state : Residency) (calls : List Call)
    (hin : ∀ c ∈ calls, c.stop ≤ nbytes) {m : CoherenceMap}
    (h : (init nbytes state granule).setAll calls = some m) :
    m.granule = granule ∧ m.Bytewise nbytes (lastState state calls) := by
  rcases Nat.eq_zero_or_pos nbytes with rfl | hpos
  · obtain rfl := Option.some_inj.1 ((setAll_empty hin).symm.trans h)
    refine ⟨rfl, ?_⟩
    constructor <;> simp [init, single]
  · obtain ⟨hc, hg⟩ := consistent_setAll hpos hin h
    exact ⟨hg, hc.bytewise hpos⟩

/-- Two windows of an allocation, the second of them read back to the host. -/
theorem twoWindows_bytewise :
    Bytewise ⟨[⟨0, 64, .device⟩, ⟨64, 128, .host⟩], [64, 128], 64, none⟩ 128
      (lastState .host [⟨0, 128, .device⟩, ⟨64, 128, .host⟩]) :=
  (coherence_bytewise 128 64 .host [⟨0, 128, .device⟩, ⟨64, 128, .host⟩] (by decide)
    (by decide)).2

/-- **The map is canonical**: calls that leave each byte in the same state leave the same map. -/
theorem setAll_canonical (nbytes granule : ℕ) (state : Residency) (calls calls' : List Call)
    (hin : ∀ c ∈ calls, c.stop ≤ nbytes) (hin' : ∀ c ∈ calls', c.stop ≤ nbytes)
    (h : ((init nbytes state granule).setAll calls).isSome)
    (h' : ((init nbytes state granule).setAll calls').isSome)
    (hsame : ∀ b < nbytes, lastState state calls b = lastState state calls' b) :
    (init nbytes state granule).setAll calls = (init nbytes state granule).setAll calls' := by
  rcases Nat.eq_zero_or_pos nbytes with rfl | hpos
  · rw [setAll_empty hin, setAll_empty hin']
  · obtain ⟨m, hm⟩ := Option.isSome_iff_exists.1 h
    obtain ⟨m', hm'⟩ := Option.isSome_iff_exists.1 h'
    obtain ⟨hc, hg⟩ := consistent_setAll hpos hin hm
    obtain ⟨hc', hg'⟩ := consistent_setAll hpos hin' hm'
    have hspans : m.spans = m'.spans :=
      eq_of_paints hc.paints (hc'.paints.congr fun b _ hb => hsame b hb) hc.differ hc'.differ
    have hends : m.ends = m'.ends := by rw [hc.ends, hc'.ends, hspans]
    have huniform : m.uniform = m'.uniform := by rw [hc.uniform, hc'.uniform, hspans]
    rw [hm, hm', Option.some_inj]
    cases m
    cases m'
    simp only [mk.injEq]
    exact ⟨hspans, hends, hg.trans hg'.symm, huniform⟩

theorem halves_canonical :
    (init 128 .host 64).setAll [⟨64, 128, .device⟩, ⟨0, 64, .device⟩] =
      (init 128 .host 64).setAll [⟨0, 64, .host⟩, ⟨0, 128, .device⟩] :=
  setAll_canonical 128 64 .host _ _ (by decide) (by decide) (by decide) (by decide) (by decide)

/-- The one span of an empty allocation is empty, and a query past the end finds a state. -/
theorem emptyAllocation_span :
    (init 0 .host 64).setAll [] = some (init 0 .host 64) ∧
      (∃ s ∈ (init 0 .host 64).spans, s.lo = s.hi) ∧
      (init 0 .host 64).anyHostWritten 0 1 = true := by
  decide

/-! ## Rejected calls -/

/-- **A rejected call changes nothing** exactly if the range was in its state already. -/
theorem set_unchanged_iff (nbytes granule : ℕ) (state : Residency) (calls : List Call)
    (hin : ∀ c ∈ calls, c.stop ≤ nbytes) (start stop : ℕ) (hstop : stop ≤ nbytes)
    (state' : Residency) {edges : List ℕ}
    (hraise : (((init nbytes state granule).setAllCaught calls).set start stop state').2 =
      some (.valueError edges)) :
    (((init nbytes state granule).setAllCaught calls).set start stop state').1 =
        (init nbytes state granule).setAllCaught calls ↔
      ∀ s ∈ ((init nbytes state granule).setAllCaught calls).spans,
        s.lo < stop → start < s.hi → s.state = state' := by
  have hlt : start < stop := by
    by_contra hle
    rw [CoherenceMap.set, if_pos (not_lt.1 hle)] at hraise
    cases hraise
  have hm : ((init nbytes state granule).setAllCaught calls).Holds nbytes _ :=
    holds_setAllCaught (by omega) hin
  have hm' := hm.set start hstop state'
  have hgranule := set_granule ((init nbytes state granule).setAllCaught calls) start stop state'
  have huniform := set_uniform_of_error hraise
  generalize (init nbytes state granule).setAllCaught calls = m at *
  constructor
  · intro heq s hs hlo hhi
    rw [heq] at hm'
    obtain ⟨-, hs₁, -, hf⟩ := hm.paints.mem hs
    obtain ⟨-, -, -, hf'⟩ := hm'.paints.mem hs
    rw [← hf' (max s.lo start) (le_max_left _ _) (by omega)]
    exact if_pos ⟨le_max_right _ _, by omega⟩
  · intro hall
    have hspans : (m.set start stop state').1.spans = m.spans := by
      refine eq_of_paints (hm'.paints.congr fun b _ hb => ?_) hm.paints hm'.differ hm.differ
      rw [overwrite]
      split
      · rename_i hmem
        obtain ⟨s, hs, hlo, hhi⟩ := hm.paints.exists_mem (Nat.zero_le b) hb
        rw [(hm.paints.mem hs).2.2.2 b hlo hhi, hall s hs (by omega) (by omega)]
      · rfl
    have hends := hm'.ends
    rw [hspans, ← hm.ends] at hends
    generalize m.set start stop state' = result at *
    cases m
    obtain ⟨⟨_, _, _, _⟩, _⟩ := result
    simp_all

/-- Half a granule of an allocation of two is recorded, and rejected. -/
theorem halfGranule_changed :
    ((init 128 .host 64).set 0 32 .device).2 = some (.valueError [32]) ∧
      ((init 128 .host 64).set 0 32 .device).1 ≠ init 128 .host 64 := by
  decide

theorem halfGranule_unchanged_iff :
    (((init 128 .host 64).setAllCaught [⟨0, 32, .device⟩]).set 0 16 .device).1 =
        (init 128 .host 64).setAllCaught [⟨0, 32, .device⟩] ↔
      ∀ s ∈ ((init 128 .host 64).setAllCaught [⟨0, 32, .device⟩]).spans,
        s.lo < 16 → 0 < s.hi → s.state = .device :=
  set_unchanged_iff 128 64 .host [⟨0, 32, .device⟩] (by decide) 0 16 (by decide) .device
    (show _ = some (SetError.valueError [32]) by decide)

end CoherenceMap

end MlirAie.Runtime
