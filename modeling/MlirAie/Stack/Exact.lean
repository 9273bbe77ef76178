import MlirAie.Stack.Walk

/-!
# The stack requirement is exact

Every total that the walk remembers is the largest sum over the call paths from its function, below
which nothing recurses. A visit keeps that whatever was remembered before it.

* `Walk.Sound`: the invariant; `VisitPost`: what a visit comes to;
* **`exists_visit`**: a visit with enough depth comes to it;
* **`maxPathFrom_exact`**.
-/

namespace MlirAie.Stack

open MlirAie.Lib Relation

variable {g : Graph} {entry sym : Address} {w w' : Walk}

/-! ## Bytes -/

def Graph.OverridesNonneg (g : Graph) : Prop :=
  ∀ sym bytes, g.overridesByAddr.lookup sym = some bytes → 0 ≤ bytes

theorem frameSize_nonneg (g : Graph) (sym : Address) : 0 ≤ (g.frameSize sym).toInt := by
  rw [Graph.frameSize]
  cases hknown : g.knownFrameSize sym with
  | none => simp
  | some bytes =>
    rw [Option.getD_some]
    refine Int64.le_iff_toInt_le.1 (?_ : 0 ≤ bytes)
    rw [Graph.knownFrameSize] at hknown
    split_ifs at hknown with hframe
    · cases hknown
      exact hframe
    · obtain ⟨f, hf, rfl⟩ := Option.map_eq_some_iff.1 hknown
      exact g.fallbackFrames.nonneg f (List.mem_of_find?_eq_some hf)

theorem bytes_nonneg (hov : g.OverridesNonneg) (sym : Address) : 0 ≤ g.bytes sym := by
  rw [Graph.bytes]
  cases hoverride : g.overridesByAddr.lookup sym with
  | none => exact frameSize_nonneg g sym
  | some bytes => exact Int64.le_iff_toInt_le.1 (hov sym bytes hoverride)

theorem toInt_add_of_le {a b : Int64} (ha : 0 ≤ a.toInt) (hb : 0 ≤ b.toInt)
    (h : a.toInt + b.toInt ≤ Int64.maxValue.toInt) : (a + b).toInt = a.toInt + b.toInt := by
  rw [Int64.toInt_maxValue] at h
  rw [Int64.toInt_add]
  exact Int.bmod_eq_of_le (by omega) (by omega)

theorem toInt_max (a b : Int64) : (max a b).toInt = max a.toInt b.toInt := by
  by_cases h : a ≤ b
  · rw [show max a b = b from if_pos h, max_eq_right (Int64.le_iff_toInt_le.1 h)]
  · rw [show max a b = a from if_neg h, max_eq_left]
    exact (Int64.lt_iff_toInt_lt.1 (Int64.not_le.1 h)).le

theorem maxValue_sub_lt_iff {frame best : Int64} (hbest : 0 ≤ best.toInt) :
    Int64.maxValue - best < frame ↔ Int64.maxValue.toInt < frame.toInt + best.toInt := by
  have hlt := best.toInt_lt
  rw [Int64.lt_iff_toInt_lt, Int64.toInt_sub, Int64.toInt_maxValue,
    Int.bmod_eq_of_le (by omega) (by omega)]
  omega

/-! ## The invariant -/

/-- The sum of a call path from `sym`, which stops at its first overridden function. -/
abbrev CallSum (g : Graph) (sym : Address) (s : ℤ) : Prop :=
  PathSum g.Step g.bytes (fun _ => True) sym s

/-- `bytes` is the largest sum from `sym`, nothing recurses below it, and all that is not measured
there is reported. -/
structure Exact (g : Graph) (unmeasured : List Address) (sym : Address) (bytes : Int64) : Prop where
  greatest : IsGreatest {s | CallSum g sym s} bytes.toInt
  acyclic : Acc (fun a b => g.Step b a) sym
  reported : ∀ a, ReflTransGen g.Step sym a → g.Unmeasured a → a ∈ unmeasured

theorem Exact.mono {l l' : List Address} {bytes : Int64} (h : Exact g l sym bytes) (hl : l ⊆ l') :
    Exact g l' sym bytes :=
  ⟨h.greatest, h.acyclic, fun a hreach hun => hl (h.reported a hreach hun)⟩

/-- What the walk remembers is exact, what it reports is reached, and the functions in progress are
those on the path. -/
structure Walk.Sound (g : Graph) (entry : Address) (w : Walk) : Prop where
  memo : ∀ sym total, w.memo sym = some total → Exact g w.unmeasured sym total
  unmeasured : ∀ a ∈ w.unmeasured, ReflTransGen g.Step entry a ∧ g.Unmeasured a
  onPath : ∀ sym, w.state sym = .InProgress ↔ sym ∈ w.pathStack

/-- A recursion that no override cuts is reached, or a sum that no signed 64 bits hold. -/
def Graph.Fails (g : Graph) (entry : Address) : Failure → Prop
  | .cycle _ => ∃ a, ReflTransGen g.Step entry a ∧ TransGen g.Step a a
  | .overflow _ => ∃ s, CallSum g entry s ∧ Int64.maxValue.toInt < s

/-- What a visit of `sym` comes to. -/
def VisitPost (g : Graph) (entry sym : Address) (w : Walk) : Except Failure (Int64 × Walk) → Prop
  | .error e => g.Fails entry e
  | .ok r => r.2.Sound g entry ∧ r.2.pathStack = w.pathStack ∧ w.unmeasured ⊆ r.2.unmeasured ∧
      Exact g r.2.unmeasured sym r.1

/-- What the loop over the callees comes to: `best` is the largest sum over those visited. -/
def CalleesPost (g : Graph) (entry : Address) (callees : List Address) (w : Walk) :
    Except Failure (Int64 × Walk) → Prop
  | .error e => g.Fails entry e
  | .ok r => r.2.Sound g entry ∧ r.2.pathStack = w.pathStack ∧ w.unmeasured ⊆ r.2.unmeasured ∧
      IsGreatest (insert 0 (sumsFrom g.Step g.bytes (fun _ => True) callees)) r.1.toInt ∧
      ∀ callee ∈ callees, ∃ bytes, Exact g r.2.unmeasured callee bytes

theorem exists_visitCallees {visit : Address → Walk → Visited}
    {stack : List Address} (callees : List Address)
    (hvisit : ∀ callee ∈ callees, ∀ w, w.Sound g entry → w.pathStack = stack →
      ∃ r, visit callee w = some r ∧ VisitPost g entry callee w r)
    (seen : List Address) (best : Int64) (w : Walk) (hw : w.Sound g entry)
    (hstack : w.pathStack = stack)
    (hbest : IsGreatest (insert 0 (sumsFrom g.Step g.bytes (fun _ => True) seen)) best.toInt)
    (hseen : ∀ callee ∈ seen, ∃ bytes, Exact g w.unmeasured callee bytes) :
    ∃ r, visitCallees visit callees best w = some r ∧
      CalleesPost g entry (seen ++ callees) w r := by
  induction callees generalizing seen best w with
  | nil =>
    rw [List.append_nil]
    exact ⟨_, rfl, hw, rfl, List.Subset.refl _, hbest, hseen⟩
  | cons callee callees ih =>
    obtain ⟨r, hr, hpost⟩ := hvisit callee (List.mem_cons_self ..) w hw hstack
    rw [visitCallees, hr]
    cases r with
    | error e => exact ⟨_, rfl, hpost⟩
    | ok r =>
      obtain ⟨sub, w₁⟩ := r
      obtain ⟨hw₁, hstack₁, hsub, hexact⟩ := hpost
      dsimp only at hw₁ hstack₁ hsub hexact ⊢
      have hbest' : IsGreatest (insert 0
          (sumsFrom g.Step g.bytes (fun _ => True) (seen ++ [callee]))) (max best sub).toInt := by
        rw [sumsFrom_append_singleton, toInt_max, ← Set.insert_union]
        exact hbest.union hexact.greatest
      obtain ⟨r, hr, hpost⟩ := ih (fun c hc => hvisit c (List.mem_cons_of_mem _ hc))
        (seen ++ [callee]) (max best sub) w₁ hw₁ (hstack₁.trans hstack) hbest' fun c hc => by
          rcases List.mem_append.1 hc with hc | hc
          · obtain ⟨bytes, hbytes⟩ := hseen c hc
            exact ⟨bytes, hbytes.mono hsub⟩
          · obtain rfl := List.mem_singleton.1 hc
            exact ⟨sub, hexact⟩
      refine ⟨r, hr, ?_⟩
      rw [List.append_assoc, List.singleton_append] at hpost
      cases r with
      | error e => exact hpost
      | ok r =>
        obtain ⟨h₁, h₂, h₃, h₄⟩ := hpost
        exact ⟨h₁, h₂.trans hstack₁, List.Subset.trans hsub h₃, h₄⟩

/-! ## A visit -/

theorem exact_of_override {bytes : Int64} (h : g.overridesByAddr.lookup sym = some bytes)
    (l : List Address) : Exact g l sym bytes := by
  have hstep : ∀ a, ¬ g.Step sym a := fun a ha => by simp [Graph.Step, h] at ha
  have hbytes : g.bytes sym = bytes.toInt := by rw [Graph.bytes, h, Option.getD_some]
  refine ⟨⟨?_, fun s hs => ?_⟩, ⟨_, fun a ha => absurd ha (hstep a)⟩, fun a ha hun => ?_⟩
  · rw [← hbytes]
    exact PathSum.stop trivial
  · rcases pathSum_iff.1 hs with ⟨-, rfl⟩ | ⟨v, t, hr, -, -⟩
    · exact hbytes.le
    · exact absurd hr (hstep v)
  · rcases ha.cases_head with rfl | ⟨b, hb, -⟩
    · exact absurd (h.symm.trans hun.1) (by simp)
    · exact absurd hb (hstep b)

theorem Walk.Sound.enter (hw : w.Sound g entry) (hreach : ReflTransGen g.Step entry sym)
    (hoverride : g.overridesByAddr.lookup sym = none) :
    ((w.measure g sym).enter sym).Sound g entry := by
  have hsub : w.unmeasured ⊆ (w.measure g sym).unmeasured := by
    unfold Walk.measure
    split_ifs
    · exact fun a ha => List.mem_insert_of_mem ha
    · exact List.Subset.refl _
  refine ⟨fun a total h => ?_, fun a ha => ?_, fun a => ?_⟩
  · refine (hw.memo a total ?_).mono hsub
    unfold Walk.enter Walk.measure at h
    split_ifs at h <;> exact h
  · have ha' : a ∈ (w.measure g sym).unmeasured := ha
    unfold Walk.measure at ha'
    split_ifs at ha' with hknown
    · rcases List.mem_insert_iff.1 ha' with rfl | ha'
      · exact ⟨hreach, hoverride, Option.isNone_iff_eq_none.1 hknown⟩
      · exact hw.unmeasured a ha'
    · exact hw.unmeasured a ha'
  · have hstack : (w.measure g sym).pathStack = w.pathStack := by
      unfold Walk.measure
      split_ifs <;> rfl
    have hstate : (w.measure g sym).state = w.state := by
      unfold Walk.measure
      split_ifs <;> rfl
    change Function.update (w.measure g sym).state sym .InProgress a = _ ↔ a ∈ _ ++ [sym]
    rw [hstack, hstate, List.mem_append, List.mem_singleton]
    by_cases ha : a = sym
    · subst ha
      simp
    · rw [Function.update_of_ne ha, hw.onPath a]
      simp [ha]

theorem mem_unmeasured_enter (w : Walk) (hun : g.Unmeasured sym) :
    sym ∈ ((w.measure g sym).enter sym).unmeasured := by
  change sym ∈ (w.measure g sym).unmeasured
  rw [Walk.measure, if_pos (Option.isNone_iff_eq_none.2 hun.2)]
  exact List.mem_insert_self

theorem unmeasured_subset_enter (w : Walk) :
    w.unmeasured ⊆ ((w.measure g sym).enter sym).unmeasured := by
  change w.unmeasured ⊆ (w.measure g sym).unmeasured
  unfold Walk.measure
  split_ifs
  · exact fun a ha => List.mem_insert_of_mem ha
  · exact List.Subset.refl _

theorem pathStack_enter (w : Walk) :
    ((w.measure g sym).enter sym).pathStack = w.pathStack ++ [sym] := by
  change (w.measure g sym).pathStack ++ [sym] = _
  unfold Walk.measure
  split_ifs <;> rfl

theorem Walk.Sound.leave (hw : w.Sound g entry) {stack : List Address}
    (hstack : w.pathStack = stack ++ [sym]) (hnot : sym ∉ stack) {total : Int64}
    (hexact : Exact g w.unmeasured sym total) :
    ((w.leave sym).record sym total).Sound g entry := by
  refine ⟨fun a t h => ?_, hw.unmeasured, fun a => ?_⟩
  · by_cases ha : a = sym
    · subst ha
      have : total = t := by simpa [Walk.record] using h
      exact this ▸ hexact
    · refine hw.memo a t ?_
      simpa [Walk.record, Walk.leave, Function.update_of_ne ha] using h
  · change Function.update w.state sym .Done a = _ ↔ a ∈ w.pathStack.dropLast
    rw [hstack, List.dropLast_concat]
    by_cases ha : a = sym
    · subst ha
      simp [hnot]
    · rw [Function.update_of_ne ha, hw.onPath a, hstack]
      simp [ha]

theorem exact_of_callees {callees : List Address} {unmeasured : List Address}
    (hoverride : g.overridesByAddr.lookup sym = none) (hcallees : g.callees sym = callees)
    {best total : Int64}
    (hbest : IsGreatest (insert 0 (sumsFrom g.Step g.bytes (fun _ => True) callees)) best.toInt)
    (htotal : total.toInt = (g.frameSize sym).toInt + best.toInt)
    (hexact : ∀ callee ∈ callees, ∃ bytes, Exact g unmeasured callee bytes)
    (hself : g.Unmeasured sym → sym ∈ unmeasured) : Exact g unmeasured sym total := by
  have hstep : ∀ a, g.Step sym a ↔ a ∈ callees := fun a => by
    rw [Graph.Step, hcallees]
    exact and_iff_right hoverride
  have hbytes : g.bytes sym = (g.frameSize sym).toInt := by
    rw [Graph.bytes, hoverride, Option.getD_none]
  refine ⟨?_, ⟨_, fun a ha => ?_⟩, fun a hreach hun => ?_⟩
  · have := isGreatest_pathSum (r := g.Step) (w := g.bytes) hstep hbest
    rwa [hbytes, ← htotal] at this
  · obtain ⟨bytes, hbytes⟩ := hexact a ((hstep a).1 ha)
    exact hbytes.acyclic
  · rcases hreach.cases_head with rfl | ⟨b, hb, hreach⟩
    · exact hself hun
    · obtain ⟨bytes, hbytes⟩ := hexact b ((hstep b).1 hb)
      exact hbytes.reported a hreach hun

/-- The nodes that are not on the path: the recursion enters one more at every level. -/
def nodesLeft (g : Graph) (stack : List Address) : ℕ :=
  (g.nodes.keys.toFinset \ stack.toFinset).card

theorem nodesLeft_append_lt {stack : List Address} (hmem : sym ∈ g.nodes.keys)
    (hnot : sym ∉ stack) : nodesLeft g (stack ++ [sym]) < nodesLeft g stack := by
  refine Finset.card_lt_card ⟨?_, fun hall => ?_⟩
  · refine Finset.sdiff_subset_sdiff le_rfl fun a ha => ?_
    rw [List.toFinset_append]
    exact Finset.mem_union_left _ ha
  · have := hall (Finset.mem_sdiff.2 ⟨List.mem_toFinset.2 hmem, by simpa using hnot⟩)
    simp at this

theorem mem_keys_of_mem_callees {callee : Address} (h : callee ∈ g.callees sym) :
    sym ∈ g.nodes.keys := by
  by_contra hnot
  have : g.nodes.lookup sym = none := AList.lookup_eq_none.2 hnot
  simp [Graph.callees, Graph.node, this] at h

/-- **A visit that is deep enough** keeps the invariant, and its total is exact; or it fails for a
recursion, or for an overflow. -/
theorem exists_visit (hov : g.OverridesNonneg) (fuel : ℕ) (sym : Address) (w : Walk)
    (hfuel : nodesLeft g w.pathStack < fuel) (hreach : ReflTransGen g.Step entry sym)
    (hpath : ∀ a ∈ w.pathStack, TransGen g.Step a sym) (hw : w.Sound g entry) :
    ∃ r, maxPathFrom g fuel sym w = some r ∧ VisitPost g entry sym w r := by
  induction fuel generalizing sym w with
  | zero => exact absurd hfuel (Nat.not_lt_zero _)
  | succ fuel ih =>
    rw [maxPathFrom]
    cases hoverride : g.overridesByAddr.lookup sym with
    | some bytes =>
      exact ⟨_, rfl, hw, rfl, List.Subset.refl _, exact_of_override hoverride _⟩
    | none =>
    cases hmemo : w.memo sym with
    | some total => exact ⟨_, rfl, hw, rfl, List.Subset.refl _, hw.memo sym total hmemo⟩
    | none =>
    dsimp only
    by_cases hprogress : w.state sym = .InProgress
    · rw [if_pos hprogress]
      exact ⟨_, rfl, sym, hreach, hpath sym ((hw.onPath sym).1 hprogress)⟩
    rw [if_neg hprogress]
    have hnot : sym ∉ w.pathStack := fun h => hprogress ((hw.onPath sym).2 h)
    -- Every callee is visited with `sym` in progress.
    have hvisit : ∀ callee ∈ g.callees sym, ∀ w₁ : Walk, w₁.Sound g entry →
        w₁.pathStack = w.pathStack ++ [sym] →
        ∃ r, maxPathFrom g fuel callee w₁ = some r ∧ VisitPost g entry callee w₁ r := by
      intro callee hcallee w₁ hw₁ hstack₁
      have hstep : g.Step sym callee := ⟨hoverride, hcallee⟩
      refine ih callee w₁ ?_ (hreach.tail hstep) (fun a ha => ?_) hw₁
      · have := nodesLeft_append_lt (mem_keys_of_mem_callees hcallee) hnot
        rw [hstack₁]
        omega
      · rw [hstack₁, List.mem_append, List.mem_singleton] at ha
        rcases ha with ha | rfl
        · exact (hpath a ha).tail hstep
        · exact .single hstep
    obtain ⟨r, hr, hpost⟩ := exists_visitCallees (g.callees sym) hvisit [] 0
      ((w.measure g sym).enter sym) (hw.enter hreach hoverride) (pathStack_enter w)
      (by simp) (by simp)
    rw [hr]
    cases r with
    | error e => exact ⟨_, rfl, hpost⟩
    | ok r =>
    obtain ⟨best, w₁⟩ := r
    obtain ⟨hw₁, hstack₁, hsub, hbest, hexact⟩ := hpost
    rw [List.nil_append] at hbest hexact
    rw [pathStack_enter] at hstack₁
    have hbestNonneg : 0 ≤ best.toInt := hbest.2 (Set.mem_insert 0 _)
    dsimp only
    by_cases hlt : Int64.maxValue - best < g.frameSize sym
    · rw [if_pos hlt]
      rw [maxValue_sub_lt_iff hbestNonneg] at hlt
      have hsum : CallSum g sym ((g.frameSize sym).toInt + best.toInt) := by
        have hgreatest := isGreatest_pathSum (r := g.Step) (w := g.bytes) (u := sym)
          (fun a => and_iff_right hoverride) hbest
        rw [Graph.bytes, hoverride, Option.getD_none] at hgreatest
        exact hgreatest.1
      obtain ⟨s, hs, hle⟩ := hsum.exists_le (bytes_nonneg hov) hreach
      exact ⟨_, rfl, s, hs, by omega⟩
    · rw [if_neg hlt]
      rw [maxValue_sub_lt_iff hbestNonneg, not_lt] at hlt
      have htotal := exact_of_callees hoverride rfl hbest
        (toInt_add_of_le (frameSize_nonneg g sym) hbestNonneg hlt) hexact
        (fun hun => hsub (mem_unmeasured_enter w hun))
      refine ⟨_, rfl, hw₁.leave hstack₁ hnot htotal, ?_, ?_, htotal⟩
      · change w₁.pathStack.dropLast = w.pathStack
        rw [hstack₁, List.dropLast_concat]
      · exact List.Subset.trans (unmeasured_subset_enter w) hsub

theorem visitCallees_mono {visit visit' : Address → Walk → Visited}
    (hvisit : ∀ callee w r, visit callee w = some r → visit' callee w = some r)
    (callees : List Address) (best : Int64) (w : Walk) {r : Except Failure (Int64 × Walk)}
    (h : visitCallees visit callees best w = some r) :
    visitCallees visit' callees best w = some r := by
  induction callees generalizing best w with
  | nil => exact h
  | cons callee callees ih =>
    rw [visitCallees] at h ⊢
    cases hcallee : visit callee w with
    | none => simp [hcallee] at h
    | some r₁ =>
      rw [hcallee] at h
      rw [hvisit callee w r₁ hcallee]
      cases r₁ with
      | error e => exact h
      | ok r₁ => exact ih _ _ h

theorem maxPathFrom_mono {n m : ℕ} (hn : n ≤ m) (sym : Address) (w : Walk)
    {r : Except Failure (Int64 × Walk)} (h : maxPathFrom g n sym w = some r) :
    maxPathFrom g m sym w = some r := by
  induction n generalizing m sym w r with
  | zero => cases h
  | succ n ih =>
    obtain ⟨m, rfl⟩ := Nat.exists_eq_add_of_le' (Nat.one_le_of_lt hn)
    rw [maxPathFrom] at h ⊢
    cases hoverride : g.overridesByAddr.lookup sym with
    | some bytes => rwa [hoverride] at h
    | none =>
    cases hmemo : w.memo sym with
    | some total => rwa [hoverride, hmemo] at h
    | none =>
    rw [hoverride, hmemo] at h
    dsimp only at h ⊢
    split_ifs at h ⊢
    · exact h
    · cases hcallees : visitCallees (maxPathFrom g n) (g.callees sym) 0
          ((w.measure g sym).enter sym) with
      | none => simp [hcallees] at h
      | some r₁ =>
        rw [hcallees] at h
        rw [visitCallees_mono (fun c w r hr => ih (by omega) c w hr) _ _ _ hcallees]
        exact h

/-! ## The claimed functions -/

/-- The sum of a call path from `sym` that ends at a claimed function. -/
abbrev ClaimedSum (g : Graph) (claimed : List Address) (sym : Address) (s : ℤ) : Prop :=
  PathSum g.Step g.bytes (fun a => a ∈ claimed) sym s

variable {claimed : List Address} {memo : Memo}

/-- What the second walk remembers is the largest sum, or `-1` for none. -/
def MemoSound (g : Graph) (claimed : List Address) (memo : Memo) : Prop :=
  ∀ sym deepest, memo sym = some deepest →
    Largest {s | ClaimedSum g claimed sym s} deepest.toInt

theorem deepestOver_mono {visit visit' : Address → Memo → Option (Int64 × Memo)}
    (hvisit : ∀ callee memo r, visit callee memo = some r → visit' callee memo = some r)
    (frameSize : Int64) (callees : List Address) (deepest : Int64) (memo : Memo)
    {r : Int64 × Memo} (h : deepestOver visit frameSize callees deepest memo = some r) :
    deepestOver visit' frameSize callees deepest memo = some r := by
  induction callees generalizing deepest memo with
  | nil => exact h
  | cons callee callees ih =>
    rw [deepestOver] at h ⊢
    cases hcallee : visit callee memo with
    | none => simp [hcallee] at h
    | some r₁ =>
      rw [hcallee] at h
      rw [hvisit callee memo r₁ hcallee]
      exact ih _ _ h

theorem claimedFrameEndFrom_mono {n m : ℕ} (hn : n ≤ m) (sym : Address) (memo : Memo)
    {r : Int64 × Memo} (h : claimedFrameEndFrom g claimed n sym memo = some r) :
    claimedFrameEndFrom g claimed m sym memo = some r := by
  induction n generalizing m sym memo r with
  | zero => cases h
  | succ n ih =>
    obtain ⟨m, rfl⟩ := Nat.exists_eq_add_of_le' (Nat.one_le_of_lt hn)
    rw [claimedFrameEndFrom] at h ⊢
    cases hoverride : g.overridesByAddr.lookup sym with
    | some bytes => rwa [hoverride] at h
    | none =>
    cases hmemo : memo sym with
    | some deepest => rwa [hoverride, hmemo] at h
    | none =>
    rw [hoverride, hmemo] at h
    dsimp only at h ⊢
    cases hcallees : deepestOver (claimedFrameEndFrom g claimed n) (g.frameSize sym)
        (g.callees sym) (if sym ∈ claimed then g.frameSize sym else -1) memo with
    | none => simp [hcallees] at h
    | some r₁ =>
      rw [hcallees] at h
      rw [deepestOver_mono (fun c memo r hr => ih (by omega) c memo hr) _ _ _ _ hcallees]
      exact h

/-- The sums that the loop over the callees takes the largest of. -/
abbrev claimedSums (g : Graph) (claimed : List Address) (sym : Address) (callees : List Address) :
    Set ℤ :=
  {s | sym ∈ claimed ∧ s = g.bytes sym} ∪
    (fun s => g.bytes sym + s) '' sumsFrom g.Step g.bytes (fun a => a ∈ claimed) callees

theorem nonneg_of_mem_claimedSums (hov : g.OverridesNonneg) {callees : List Address} {s : ℤ}
    (h : s ∈ claimedSums g claimed sym callees) : 0 ≤ s := by
  rcases h with ⟨-, rfl⟩ | ⟨t, ht, rfl⟩
  · exact bytes_nonneg hov sym
  · have := nonneg_of_mem_sumsFrom (bytes_nonneg hov) ht
    have := bytes_nonneg hov sym
    dsimp only
    omega

/-- One callee more. -/
theorem largest_snoc (hov : g.OverridesNonneg) (hoverride : g.overridesByAddr.lookup sym = none)
    (hbound : ∀ s, CallSum g sym s → s ≤ Int64.maxValue.toInt) {callee : Address}
    (hstep : g.Step sym callee) {seen : List Address} {deepest sub : Int64}
    (hdeepest : Largest (claimedSums g claimed sym seen) deepest.toInt)
    (hsub : Largest {s | ClaimedSum g claimed callee s} sub.toInt) :
    Largest (claimedSums g claimed sym (seen ++ [callee]))
      (if 0 ≤ sub then max deepest (g.frameSize sym + sub) else deepest).toInt := by
  have hbytes : g.bytes sym = (g.frameSize sym).toInt := by
    rw [Graph.bytes, hoverride, Option.getD_none]
  have hset : claimedSums g claimed sym (seen ++ [callee]) =
      claimedSums g claimed sym seen ∪
        (fun s => g.bytes sym + s) '' {s | ClaimedSum g claimed callee s} := by
    rw [claimedSums, sumsFrom_append_singleton, Set.image_union, Set.union_assoc]
  rw [hset]
  rcases hsub with hsub | ⟨hempty, hneg⟩
  · have hnonneg := hsub.1.nonneg (bytes_nonneg hov)
    have hsum : CallSum g sym (g.bytes sym + sub.toInt) :=
      .step hstep (hsub.1.mono fun _ _ => trivial)
    have hadd : (g.frameSize sym + sub).toInt = g.bytes sym + sub.toInt := by
      rw [hbytes]
      refine toInt_add_of_le (frameSize_nonneg g sym) hnonneg ?_
      rw [← hbytes]
      exact hbound _ hsum
    have hge : (0 : Int64) ≤ sub := Int64.le_iff_toInt_le.2 hnonneg
    rw [if_pos hge, toInt_max, hadd]
    refine hdeepest.union (.inl ⟨⟨_, hsub.1, rfl⟩, ?_⟩)
      (fun s hs => nonneg_of_mem_claimedSums hov hs) ?_
    · rintro _ ⟨s, hs, rfl⟩
      have := hsub.2 hs
      dsimp only
      omega
    · rintro _ ⟨s, hs, rfl⟩
      have := PathSum.nonneg (bytes_nonneg hov) hs
      have := bytes_nonneg hov sym
      dsimp only
      omega
  · rw [hempty, Set.image_empty, Set.union_empty, if_neg]
    · exact hdeepest
    · rw [Int64.le_iff_toInt_le, hneg]
      decide

theorem exists_deepestOver (hov : g.OverridesNonneg)
    (hoverride : g.overridesByAddr.lookup sym = none)
    (hbound : ∀ s, CallSum g sym s → s ≤ Int64.maxValue.toInt) (callees : List Address)
    (hstep : ∀ callee ∈ callees, g.Step sym callee)
    (hvisit : ∀ callee ∈ callees, ∀ memo, MemoSound g claimed memo →
      ∃ n r, claimedFrameEndFrom g claimed n callee memo = some r ∧ MemoSound g claimed r.2 ∧
        Largest {s | ClaimedSum g claimed callee s} r.1.toInt)
    (seen : List Address) (deepest : Int64) (memo : Memo) (hmemo : MemoSound g claimed memo)
    (hdeepest : Largest (claimedSums g claimed sym seen) deepest.toInt) :
    ∃ n r, deepestOver (claimedFrameEndFrom g claimed n) (g.frameSize sym) callees deepest memo =
        some r ∧ MemoSound g claimed r.2 ∧
      Largest (claimedSums g claimed sym (seen ++ callees)) r.1.toInt := by
  induction callees generalizing seen deepest memo with
  | nil =>
    rw [List.append_nil]
    exact ⟨0, _, rfl, hmemo, hdeepest⟩
  | cons callee callees ih =>
    obtain ⟨n₁, ⟨sub, memo₁⟩, hr₁, hmemo₁, hsub⟩ := hvisit callee (List.mem_cons_self ..) memo hmemo
    obtain ⟨n₂, r, hr, hmemo₂, hlargest⟩ := ih
      (fun c hc => hstep c (List.mem_cons_of_mem _ hc))
      (fun c hc => hvisit c (List.mem_cons_of_mem _ hc)) (seen ++ [callee]) _ memo₁ hmemo₁
      (largest_snoc hov hoverride hbound (hstep callee (List.mem_cons_self ..)) hdeepest hsub)
    rw [List.append_assoc, List.singleton_append] at hlargest
    refine ⟨max n₁ n₂, r, ?_, hmemo₂, hlargest⟩
    rw [deepestOver, claimedFrameEndFrom_mono (le_max_left _ _) callee memo hr₁]
    exact deepestOver_mono
      (fun c memo r hr => claimedFrameEndFrom_mono (le_max_right _ _) c memo hr) _ _ _ _ hr

/-- **The second walk is exact** below a function that nothing recurses below, where no sum
overflows. -/
theorem exists_claimed (hov : g.OverridesNonneg) (hacc : Acc (fun a b => g.Step b a) sym)
    (hbound : ∀ s, CallSum g sym s → s ≤ Int64.maxValue.toInt) (hmemo : MemoSound g claimed memo) :
    ∃ n r, claimedFrameEndFrom g claimed n sym memo = some r ∧ MemoSound g claimed r.2 ∧
      Largest {s | ClaimedSum g claimed sym s} r.1.toInt := by
  induction hacc generalizing memo with
  | intro sym _ ih =>
    cases hoverride : g.overridesByAddr.lookup sym with
    | some bytes =>
      have hstep : ∀ a, g.Step sym a ↔ a ∈ ([] : List Address) := fun a => by
        simp [Graph.Step, hoverride]
      have hbytes : g.bytes sym = bytes.toInt := by rw [Graph.bytes, hoverride, Option.getD_some]
      refine ⟨1, _, by rw [claimedFrameEndFrom, hoverride], hmemo, largest_pathSum hstep ?_⟩
      rw [sumsFrom_nil, Set.image_empty, Set.union_empty]
      dsimp only
      split_ifs with hclaimed
      · exact .inl ⟨⟨hclaimed, hbytes.symm⟩, fun s hs => (hs.2.trans hbytes).le⟩
      · exact .inr ⟨by simp [hclaimed], by decide⟩
    | none =>
    cases hremembered : memo sym with
    | some deepest =>
      exact ⟨1, _, by rw [claimedFrameEndFrom, hoverride, hremembered], hmemo,
        hmemo sym deepest hremembered⟩
    | none =>
    have hstep : ∀ a, g.Step sym a ↔ a ∈ g.callees sym := fun a => and_iff_right hoverride
    have hbytes : g.bytes sym = (g.frameSize sym).toInt := by
      rw [Graph.bytes, hoverride, Option.getD_none]
    have hown : Largest (claimedSums g claimed sym [])
        (if sym ∈ claimed then g.frameSize sym else -1).toInt := by
      rw [claimedSums, sumsFrom_nil, Set.image_empty, Set.union_empty]
      split_ifs with hclaimed
      · exact .inl ⟨⟨hclaimed, hbytes.symm⟩, fun s hs => (hs.2.trans hbytes).le⟩
      · exact .inr ⟨by simp [hclaimed], by decide⟩
    obtain ⟨n, ⟨deepest, memo₁⟩, hr, hmemo₁, hlargest⟩ := exists_deepestOver hov hoverride hbound
      (g.callees sym) (fun c hc => (hstep c).2 hc)
      (fun c hc memo hmemo => ih c ((hstep c).2 hc) (fun s hs => by
        have hle := hbound _ (.step ((hstep c).2 hc) hs)
        have := bytes_nonneg hov sym
        omega) hmemo) [] _ memo hmemo hown
    rw [List.nil_append] at hlargest
    have hexact := largest_pathSum hstep hlargest
    refine ⟨n + 1, (deepest, Function.update memo₁ sym (some deepest)), ?_, fun a t h => ?_, hexact⟩
    · rw [claimedFrameEndFrom, hoverride, hremembered]
      dsimp only
      rw [hr]
    · by_cases ha : a = sym
      · subst ha
        obtain rfl : deepest = t := by simpa using h
        exact hexact
      · have h' : Function.update memo₁ sym (some deepest) a = some t := h
        rw [Function.update_of_ne ha] at h'
        exact hmemo₁ a t h'

/-! ## The requirement -/

/-- What the walks come to. A failure has its cause; otherwise the total is the largest sum over the
call paths, the functions reported are those reached whose frame is not known, and the deepest frame
of any claimed functions ends where the largest sum over the paths to them does, `-1` for none. -/
def RequirementExact (g : Graph) (entry : Address) : Except Failure (Int64 × Walk) → Prop
  | .error e => g.Fails entry e
  | .ok r => IsGreatest {s | CallSum g entry s} r.1.toInt ∧
      (∀ a, a ∈ r.2.unmeasured ↔ ReflTransGen g.Step entry a ∧ g.Unmeasured a) ∧
      ∀ claimed : List Address, ∃ n deepest memo,
        (∀ m, n ≤ m → claimedFrameEndFrom g claimed m entry (fun _ => none) =
          some (deepest, memo)) ∧ Largest {s | ClaimedSum g claimed entry s} deepest.toInt

/-- **The stack requirement walk is exact.** -/
theorem maxPathFrom_exact (g : Graph) (hov : g.OverridesNonneg) (entry : Address) :
    ∃ n r, (∀ m, n ≤ m → maxPathFrom g m entry {} = some r) ∧ RequirementExact g entry r := by
  have hstart : Walk.Sound g entry {} :=
    ⟨fun _ _ h => (nomatch h), fun _ h => (nomatch h),
      fun _ => ⟨fun h => (nomatch h), fun h => (nomatch h)⟩⟩
  obtain ⟨r, hr, hpost⟩ := exists_visit hov (nodesLeft g [] + 1) entry {} (Nat.lt_succ_self _)
    .refl (fun _ h => nomatch h) hstart
  refine ⟨_, r, fun m hm => maxPathFrom_mono hm entry {} hr, ?_⟩
  cases r with
  | error e => exact hpost
  | ok r =>
    obtain ⟨hsound, -, -, hexact⟩ := hpost
    refine ⟨hexact.greatest, fun a => ⟨hsound.unmeasured a, fun h => hexact.reported a h.1 h.2⟩,
      fun claimed => ?_⟩
    have hempty : MemoSound g claimed fun _ => none := fun _ _ h => nomatch h
    obtain ⟨n, ⟨deepest, memo⟩, hend, -, hlargest⟩ := exists_claimed hov hexact.acyclic
      (fun s hs => (hexact.greatest.2 hs).trans (Int64.toInt_le _)) hempty
    exact ⟨n, deepest, memo, fun m hm => claimedFrameEndFrom_mono hm entry _ hend, hlargest⟩

/-- An entry point that calls a kernel, which recurses under an override, and a builtin. -/
def sampleGraph : Graph where
  nodes := (((∅ : AList fun _ : Address => Node).insert 0x100 ⟨0, [0x200, 0x300]⟩).insert 0x200
    ⟨64, [0x200]⟩).insert 0x300 ⟨-1, []⟩
  funcs := collectRanges [⟨.Function, 0x100, 0x40, "_start"⟩, ⟨.Function, 0x200, 0x40, "kernel"⟩,
    ⟨.Function, 0x300, 0x40, "__divsi3"⟩] .Function
  overridesByAddr := (∅ : AList fun _ : Address => Int64).insert 0x200 256
  elfFlags := 2
  fallbackFrames := ⟨[⟨2, "__divdf3", 96⟩], by decide⟩

theorem sampleGraph_exact : ∃ n r, (∀ m, n ≤ m → maxPathFrom sampleGraph m 0x100 {} = some r) ∧
    RequirementExact sampleGraph 0x100 r :=
  maxPathFrom_exact sampleGraph (fun sym bytes h => by
    by_cases hsym : sym = 0x200
    · rw [sampleGraph, hsym, AList.lookup_insert] at h
      cases h
      decide
    · rw [sampleGraph, AList.lookup_insert_ne hsym] at h
      cases h) 0x100

end MlirAie.Stack
