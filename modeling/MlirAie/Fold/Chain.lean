import MlirAie.Lib.Lasso
import MlirAie.Lib.Worklist

/-!
# Folding a repeating BD chain

The canonicalization of `aie.dma_start` collects the blocks a channel reaches, takes the longest
prefix of them no two of which are equivalent, and where the remaining blocks repeat it, lets the
last block of the prefix go where the last block of the chain goes.

* `DmaProgram.foldDMAStart`: the rewrite;
* `DmaProgram.stream`: the BDs the channel executes;
* **`foldDMAStart_stream_iff`**: when the rewrite keeps them.
-/

namespace MlirAie.Fold

open Lib

variable {β Op : Type*}

/-- How a block of a DMA program ends. -/
inductive Terminator (β : Type*) where
  | endOp
  | nextBd (dest : β)
  | dmaStart (dest chain : β)

def Terminator.getSuccessors : Terminator β → List β
  | endOp => []
  | nextBd dest => [dest]
  | dmaStart dest chain => [dest, chain]

/-- The blocks of a DMA program. Operations are taken up to `OperationEquivalence`: equivalent ones
are equal. -/
structure DmaProgram (β Op : Type*) where
  withoutTerminator : β → List Op
  terminator : β → Terminator β

namespace DmaProgram

/-! ## What the channel executes -/

def next (p : DmaProgram β Op) (block : β) : Option β :=
  match p.terminator block with
  | .nextBd dest => some dest
  | _ => none

/-- The block executed after `i` others. -/
def blockAt (p : DmaProgram β Op) (first : β) : ℕ → Option β
  | 0 => some first
  | i + 1 => (p.blockAt first i).bind p.next

/-- The sequence of BDs a channel that starts at block `first` executes. -/
def stream (p : DmaProgram β Op) (first : β) (i : ℕ) : Option (List Op) :=
  (p.blockAt first i).map p.withoutTerminator

/-- The blocks `bs` follow one another, and the last one goes back to the one at position `t`. -/
structure LoopsBack (p : DmaProgram β Op) (bs : List β) (t : ℕ) : Prop where
  nodup : bs.Nodup
  target_lt : t < bs.length
  chained : ∀ i b b', bs[i]? = some b → bs[i + 1]? = some b' → p.terminator b = .nextBd b'
  back : ∀ b b', bs.getLast? = some b → bs[t]? = some b' → p.terminator b = .nextBd b'

/-! ## The rewrite -/

section Blocks

variable [DecidableEq β]

/-- The worklist loop; the head of `worklist` is the block popped next. -/
def reach (p : DmaProgram β Op) : ℕ → List β → List β → List β
  | 0, _, reachable => reachable
  | _ + 1, [], reachable => reachable
  | fuel + 1, block :: worklist, reachable =>
    let found := appendNew reachable (p.terminator block).getSuccessors
    p.reach fuel ((found.drop reachable.length).reverse ++ worklist) found

/-- Every block is pushed once at most. -/
def reachable [Fintype β] (p : DmaProgram β Op) (first : β) : List β :=
  p.reach (Fintype.card β) [first] [first]

end Blocks

section Pattern

variable [DecidableEq Op]

def areEquivalentBDs (p : DmaProgram β Op) (b1 b2 : β) : Bool :=
  (p.withoutTerminator b1).length == (p.withoutTerminator b2).length &&
    ((p.withoutTerminator b1).zip (p.withoutTerminator b2)).all fun pair => pair.1 == pair.2

/-- The pattern grows up to the first block that is equivalent to one of its own. -/
@[grind =] def uniquePattern (p : DmaProgram β Op) (pattern : List β) : List β → List β × List β
  | [] => (pattern, [])
  | b :: rest =>
    if pattern.any (p.areEquivalentBDs b) then (pattern, b :: rest)
    else p.uniquePattern (pattern ++ [b]) rest

/-- The remaining blocks go through the pattern again and again. -/
def repeats (p : DmaProgram β Op) (pattern : List β) : ℕ → List β → Bool
  | _, [] => true
  | idx, b :: rest =>
    (pattern[idx]?).any (p.areEquivalentBDs b) &&
      p.repeats pattern ((idx + 1) % pattern.length) rest

end Pattern

section Fold

variable [DecidableEq β]

def setSuccessor (p : DmaProgram β Op) (block dest : β) : DmaProgram β Op :=
  { p with terminator := Function.update p.terminator block (.nextBd dest) }

def foldDMAStart [Fintype β] [DecidableEq Op] (p : DmaProgram β Op) (first : β) :
    Option (DmaProgram β Op) :=
  let split := p.uniquePattern [] (p.reachable first)
  match (p.reachable first).getLast?, split.1.getLast? with
  | some last, some lastUnique =>
    -- A chain that ends is left alone, and the terminators rewritten are asserted to be `next_bd`.
    match p.terminator last, p.terminator lastUnique with
    | .nextBd dest, .nextBd _ =>
      if split.2 ≠ [] ∧ p.repeats split.1 0 split.2 then some (p.setSuccessor lastUnique dest)
      else none
    | _, _ => none
  | _, _ => none

end Fold

/-! ## The chain read by position -/

variable {p : DmaProgram β Op} {bs : List β} {t : ℕ}

theorem getLast?_eq_of_getElem? {i : ℕ} {b : β} (hb : bs[i]? = some b)
    (hi : i + 1 = bs.length) : bs.getLast? = some b := by
  rw [List.getLast?_eq_getElem?, ← hi]
  exact hb

theorem LoopsBack.next_eq (hp : p.LoopsBack bs t) {i : ℕ} {b : β} (hb : bs[i]? = some b) :
    p.next b = bs[turn bs.length t i]? := by
  obtain ⟨hi, -⟩ := List.getElem?_eq_some_iff.1 hb
  unfold next
  by_cases hlast : i + 1 = bs.length
  · have htarget := List.getElem?_eq_getElem hp.target_lt
    rw [turn_of_eq hlast, htarget, hp.back _ _ (getLast?_eq_of_getElem? hb hlast) htarget]
  · have hfollow := List.getElem?_eq_getElem (show i + 1 < bs.length by omega)
    rw [turn_of_ne hlast, hfollow, hp.chained _ _ _ hb hfollow]

/-- The chain read by position: what follows the block at position `i` is the one at `f i`. -/
theorem blockAt_eq {f : ℕ → ℕ} (hf : ∀ i, i < bs.length → f i < bs.length)
    (hnext : ∀ i b, bs[i]? = some b → p.next b = bs[f i]?) {first : β}
    (hfirst : bs[0]? = some first) (i : ℕ) : p.blockAt first i = bs[f^[i] 0]? := by
  induction i with
  | zero => exact hfirst.symm
  | succ i ih =>
    have hpos : 0 < bs.length := (List.getElem?_eq_some_iff.1 hfirst).1
    have hlt := iterate_lt hf hpos i
    rw [blockAt, ih, List.getElem?_eq_getElem hlt, Option.bind_some,
      hnext _ _ (List.getElem?_eq_getElem hlt), Function.iterate_succ_apply']

/-- What the rewrite has checked where it applies: the chain goes through its first blocks again
and again, and no two of these are equivalent. -/
structure Repeats (p : DmaProgram β Op) (bs : List β) (k : ℕ) : Prop where
  pos : 0 < k
  lt : k < bs.length
  letter : ∀ i, i < bs.length →
    (bs[i]?).map p.withoutTerminator = (bs[i % k]?).map p.withoutTerminator
  distinct : ((bs.take k).map p.withoutTerminator).Nodup

theorem Repeats.letter_iff {k : ℕ} (hr : p.Repeats bs k) {i j : ℕ} (hi : i < bs.length)
    (hj : j < bs.length) :
    (bs[i]?).map p.withoutTerminator = (bs[j]?).map p.withoutTerminator ↔ i % k = j % k := by
  rw [hr.letter i hi, hr.letter j hj]
  refine ⟨fun h => ?_, fun h => by rw [h]⟩
  have hik := Nat.mod_lt i hr.pos
  have hjk := Nat.mod_lt j hr.pos
  have htake : ∀ {m}, m < k → (bs[m]?).map p.withoutTerminator =
      ((bs.take k).map p.withoutTerminator)[m]? := fun hm => by
    rw [List.getElem?_map, List.getElem?_take_of_lt hm]
  rw [htake hik, htake hjk] at h
  have hlen : ((bs.take k).map p.withoutTerminator).length = k := by
    have := hr.lt
    rw [List.length_map, List.length_take]
    omega
  exact (List.getElem?_inj (by omega) hr.distinct).1 h

/-! ## What the rewrite finds -/

section Blocks

variable [DecidableEq β]

/-- A step of the loop finds the next block of the chain. -/
theorem reach_succ (p : DmaProgram β Op) (fuel : ℕ) (block : β) (worklist reachable : List β) :
    p.reach (fuel + 1) (block :: worklist) reachable =
      p.reach fuel
        (((appendNew reachable (p.terminator block).getSuccessors).drop reachable.length).reverse ++
          worklist)
        (appendNew reachable (p.terminator block).getSuccessors) := rfl

theorem LoopsBack.reach_eq (hp : p.LoopsBack bs t) {i fuel : ℕ} {b : β} (hb : bs[i]? = some b)
    (hfuel : bs.length ≤ i + fuel) : p.reach fuel [b] (bs.take (i + 1)) = bs := by
  induction fuel generalizing i b with
  | zero =>
    obtain ⟨hi, -⟩ := List.getElem?_eq_some_iff.1 hb
    omega
  | succ fuel ih =>
    obtain ⟨hi, rfl⟩ := List.getElem?_eq_some_iff.1 hb
    rw [reach_succ]
    by_cases hlast : i + 1 = bs.length
    · have htarget := hp.target_lt
      have hback : p.terminator bs[i] = .nextBd bs[t] :=
        hp.back _ _ (getLast?_eq_of_getElem? hb hlast) (List.getElem?_eq_getElem htarget)
      rw [hback, Terminator.getSuccessors, hlast, List.take_length,
        appendNew_singleton_of_mem (List.getElem_mem htarget), List.drop_length]
      cases fuel <;> rfl
    · have hlt : i + 1 < bs.length := by omega
      have hnew : bs[i + 1] ∉ bs.take (i + 1) := by
        intro hmem
        obtain ⟨j, hj, heq⟩ := List.mem_take_iff_getElem.1 hmem
        have := (hp.nodup.getElem_inj_iff).1 heq
        omega
      rw [hp.chained i _ _ hb (List.getElem?_eq_getElem hlt), Terminator.getSuccessors,
        appendNew_singleton hnew, List.drop_left, List.reverse_singleton, List.append_nil,
        List.take_append_getElem]
      exact ih (List.getElem?_eq_getElem hlt) (by omega)

theorem LoopsBack.reachable_eq [Fintype β] (hp : p.LoopsBack bs t) {first : β}
    (hfirst : bs[0]? = some first) : p.reachable first = bs := by
  have htake : bs.take 1 = [first] := by
    cases bs with
    | nil => cases hfirst
    | cons b bs =>
      cases hfirst
      rfl
  rw [reachable, ← htake]
  have hcard : bs.length ≤ 0 + Fintype.card β := by
    rw [zero_add]
    exact hp.nodup.length_le_card
  have hreach := hp.reach_eq hfirst hcard
  rwa [htake] at hreach ⊢

/-- Cut after its first `k` blocks, the chain goes to the loop target from there. -/
theorem LoopsBack.next_setSuccessor (hp : p.LoopsBack bs t) {k : ℕ} {u dest : β} (hk : 0 < k)
    (hu : bs[k - 1]? = some u) (hdest : bs[t]? = some dest) {i : ℕ} {b : β}
    (hb : bs[i]? = some b) :
    (p.setSuccessor u dest).next b = bs[cutTurn k bs.length t i]? := by
  by_cases hcut : i + 1 = k
  · subst hcut
    rw [Nat.add_sub_cancel, hb] at hu
    cases hu
    rw [cutTurn_of_eq rfl, hdest]
    simp [next, setSuccessor]
  · have hne : b ≠ u := by
      rintro rfl
      obtain ⟨hi, rfl⟩ := List.getElem?_eq_some_iff.1 hb
      obtain ⟨hk', heq⟩ := List.getElem?_eq_some_iff.1 hu
      have := (hp.nodup.getElem_inj_iff).1 heq
      omega
    rw [cutTurn_of_ne hcut, ← hp.next_eq hb]
    simp [next, setSuccessor, hne]

end Blocks

section Pattern

variable [DecidableEq Op]

theorem areEquivalentBDs_iff (p : DmaProgram β Op) (b1 b2 : β) :
    p.areEquivalentBDs b1 b2 = true ↔ p.withoutTerminator b1 = p.withoutTerminator b2 := by
  simp only [areEquivalentBDs, Bool.and_eq_true, beq_iff_eq, List.all_eq_true]
  constructor
  · rintro ⟨hlen, hall⟩
    refine List.ext_getElem hlen fun i h₁ h₂ => hall (_, _) ?_
    exact List.mem_iff_getElem.2 ⟨i, by simp [h₁, h₂], by simp⟩
  · intro h
    refine ⟨by rw [h], fun pair hpair => ?_⟩
    rw [h] at hpair
    obtain ⟨i, hi, rfl⟩ := List.mem_iff_getElem.1 hpair
    rw [List.getElem_zip]

theorem uniquePattern_append (p : DmaProgram β Op) (pattern bs : List β) :
    (p.uniquePattern pattern bs).1 ++ (p.uniquePattern pattern bs).2 = pattern ++ bs := by
  induction bs generalizing pattern with
  | nil => rfl
  | cons b bs ih =>
    rw [uniquePattern]
    split_ifs
    · rfl
    · rw [ih, List.append_assoc]
      rfl

theorem uniquePattern_nodup (p : DmaProgram β Op) {pattern : List β} (bs : List β)
    (h : (pattern.map p.withoutTerminator).Nodup) :
    ((p.uniquePattern pattern bs).1.map p.withoutTerminator).Nodup := by
  induction bs generalizing pattern with
  | nil => exact h
  | cons b bs ih =>
    rw [uniquePattern]
    split_ifs with hany
    · exact h
    · refine ih ?_
      rw [List.map_append, List.nodup_append]
      refine ⟨h, List.nodup_singleton _, ?_⟩
      rintro body hbody _ hb rfl
      obtain ⟨u, hu, rfl⟩ := List.mem_map.1 hbody
      refine hany (List.any_eq_true.2 ⟨u, hu, (p.areEquivalentBDs_iff b u).2 ?_⟩)
      exact (List.mem_singleton.1 hb).symm

theorem uniquePattern_ne_nil (p : DmaProgram β Op) (b : β) (bs : List β) :
    (p.uniquePattern [] (b :: bs)).1 ≠ [] := by
  have hprefix : ∀ (bs pattern : List β), pattern ≠ [] → (p.uniquePattern pattern bs).1 ≠ [] := by
    intro bs
    induction bs with
    | nil => exact fun _ h => h
    | cons b bs ih =>
      intro pattern h
      rw [uniquePattern]
      split_ifs
      · exact h
      · exact ih _ (by simp)
  exact hprefix bs [b] (by simp)

theorem repeats_getElem? {pattern rest : List β} {idx : ℕ} (hidx : idx < pattern.length)
    (h : p.repeats pattern idx rest = true) (j : ℕ) (hj : j < rest.length) :
    (rest[j]?).map p.withoutTerminator =
      (pattern[(idx + j) % pattern.length]?).map p.withoutTerminator := by
  induction rest generalizing idx j with
  | nil => exact absurd hj (Nat.not_lt_zero j)
  | cons b rest ih =>
    rw [repeats, List.getElem?_eq_getElem hidx, Option.any_some, Bool.and_eq_true,
      areEquivalentBDs_iff] at h
    cases j with
    | zero =>
      rw [add_zero, Nat.mod_eq_of_lt hidx, List.getElem?_eq_getElem hidx]
      exact congrArg some h.1
    | succ j =>
      have hstep := ih (Nat.mod_lt _ (by omega)) h.2 j (by simpa using hj)
      rw [List.getElem?_cons_succ, hstep, Nat.mod_add_mod, add_assoc, add_comm 1 j]

def patternLength (p : DmaProgram β Op) (bs : List β) : ℕ := (p.uniquePattern [] bs).1.length

theorem patternLength_take (p : DmaProgram β Op) (bs : List β) :
    bs.take (p.patternLength bs) = (p.uniquePattern [] bs).1 := by
  have happend := congrArg (List.take (p.patternLength bs)) (p.uniquePattern_append [] bs)
  rw [List.nil_append] at happend
  rw [← happend]
  exact List.take_left

theorem getElem?_patternLength_add (p : DmaProgram β Op) (bs : List β) (j : ℕ) :
    bs[p.patternLength bs + j]? = (p.uniquePattern [] bs).2[j]? := by
  have happend := congrArg (fun l => l[p.patternLength bs + j]?) (p.uniquePattern_append [] bs)
  simp only [List.nil_append] at happend
  rw [← happend, patternLength, List.getElem?_append_right (Nat.le_add_right _ _),
    Nat.add_sub_cancel_left]

theorem repeats_of_split (hbs : bs ≠ []) (hrest : (p.uniquePattern [] bs).2 ≠ [])
    (h : p.repeats (p.uniquePattern [] bs).1 0 (p.uniquePattern [] bs).2 = true) :
    p.Repeats bs (p.patternLength bs) := by
  have happend := p.uniquePattern_append [] bs
  rw [List.nil_append] at happend
  have hlen := congrArg List.length happend
  rw [List.length_append] at hlen
  have hpos : 0 < p.patternLength bs := by
    cases bs with
    | nil => exact absurd rfl hbs
    | cons b bs => exact List.length_pos_of_ne_nil (p.uniquePattern_ne_nil b bs)
  have hrest_pos := List.length_pos_of_ne_nil hrest
  refine ⟨hpos, ?_, fun i hi => ?_, ?_⟩
  · unfold patternLength
    omega
  · by_cases hik : i < p.patternLength bs
    · rw [Nat.mod_eq_of_lt hik]
    · obtain ⟨j, rfl⟩ := Nat.exists_eq_add_of_le (not_lt.1 hik)
      have hj : j < (p.uniquePattern [] bs).2.length := by
        unfold patternLength at hi
        omega
      have hletter := repeats_getElem? hpos h j hj
      have hmod : (p.patternLength bs + j) % p.patternLength bs < p.patternLength bs :=
        Nat.mod_lt _ hpos
      rw [zero_add, ← patternLength, ← Nat.add_mod_left, ← p.patternLength_take,
        List.getElem?_take_of_lt hmod] at hletter
      rw [p.getElem?_patternLength_add, hletter]
  · rw [p.patternLength_take]
    exact p.uniquePattern_nodup bs List.nodup_nil

/-! ## The two streams -/

theorem LoopsBack.of_foldDMAStart [Fintype β] [DecidableEq β] (hp : p.LoopsBack bs t) {first : β}
    (hfirst : bs[0]? = some first) {q : DmaProgram β Op} (hq : p.foldDMAStart first = some q) :
    p.Repeats bs (p.patternLength bs) ∧
      ∃ u dest, bs[p.patternLength bs - 1]? = some u ∧ bs[t]? = some dest ∧
        q = p.setSuccessor u dest := by
  unfold foldDMAStart at hq
  rw [hp.reachable_eq hfirst] at hq
  simp only at hq
  split at hq
  · rename_i last lastUnique hlast hunique
    split at hq
    · rename_i dest _ hterm _
      split_ifs at hq with hcheck
      obtain rfl := Option.some.inj hq
      obtain ⟨hrest, hrepeats⟩ := hcheck
      have hr : p.Repeats bs (p.patternLength bs) := by
        refine repeats_of_split ?_ hrest hrepeats
        rintro rfl
        cases hfirst
      refine ⟨hr, lastUnique, dest, ?_, ?_, rfl⟩
      · have hpos := hr.pos
        rw [← p.patternLength_take, List.getLast?_eq_getElem?, List.length_take,
          Nat.min_eq_left hr.lt.le, List.getElem?_take_of_lt (by omega)] at hunique
        exact hunique
      · have htarget := List.getElem?_eq_getElem hp.target_lt
        have hback := hp.back last _ hlast htarget
        rw [hterm] at hback
        cases hback
        exact htarget
    · cases hq
  · cases hq

/-- **The rewrite keeps the stream** exactly if the chain goes back to the block that follows its
first pattern, or goes back to the start of one of its patterns and ends with a whole one. -/
theorem foldDMAStart_stream_iff [Fintype β] [DecidableEq β] (hp : p.LoopsBack bs t) {first : β}
    (hfirst : bs[0]? = some first) {q : DmaProgram β Op} (hq : p.foldDMAStart first = some q) :
    q.stream first = p.stream first ↔
      t = p.patternLength bs ∨ p.patternLength bs ∣ t ∧ p.patternLength bs ∣ bs.length := by
  obtain ⟨hr, u, dest, hu, hdest, rfl⟩ := hp.of_foldDMAStart hfirst hq
  have hpos : 0 < bs.length := hr.pos.trans hr.lt
  rw [← cutTurn_mod_iff hr.pos hr.lt hp.target_lt, funext_iff]
  refine forall_congr' fun i => ?_
  have hturn : ∀ j, j < bs.length → turn bs.length t j < bs.length :=
    fun j => turn_lt hp.target_lt
  have hcut : ∀ j, j < bs.length → cutTurn (p.patternLength bs) bs.length t j < bs.length :=
    fun j => cutTurn_lt hp.target_lt
  unfold stream
  rw [blockAt_eq hcut (fun _ _ => hp.next_setSuccessor hr.pos hu hdest) hfirst,
    blockAt_eq hturn (fun _ _ => hp.next_eq) hfirst]
  exact hr.letter_iff (iterate_lt hcut hpos i) (iterate_lt hturn hpos i)

end Pattern

/-! ## Two chains -/

/-- The blocks of a small program. -/
inductive Bd where
  | bd0
  | bd1
  | bd2
  | bd3
  deriving DecidableEq

instance : Fintype Bd := ⟨{.bd0, .bd1, .bd2, .bd3}, fun b => by cases b <;> decide⟩

/-- Three BDs of two kinds, `a b a`, that start over. -/
def oddChain : DmaProgram Bd ℕ where
  withoutTerminator
    | .bd0 | .bd2 => [0]
    | .bd1 | .bd3 => [1]
  terminator
    | .bd0 => .nextBd .bd1
    | .bd1 => .nextBd .bd2
    | .bd2 => .nextBd .bd0
    | .bd3 => .endOp

/-- Four BDs of two kinds, `a b a b`, that start over. -/
def evenChain : DmaProgram Bd ℕ where
  withoutTerminator := oddChain.withoutTerminator
  terminator
    | .bd0 => .nextBd .bd1
    | .bd1 => .nextBd .bd2
    | .bd2 => .nextBd .bd3
    | .bd3 => .nextBd .bd0

theorem evenChain_loopsBack : evenChain.LoopsBack [.bd0, .bd1, .bd2, .bd3] 0 where
  nodup := by decide
  target_lt := by decide
  chained i b b' hb hb' := by
    have hi : i < 3 := Nat.lt_of_succ_lt_succ (List.getElem?_eq_some_iff.1 hb').1
    interval_cases i <;> cases hb <;> cases hb' <;> rfl
  back b b' hb hb' := by
    cases hb
    cases hb'
    rfl

theorem oddChain_loopsBack : oddChain.LoopsBack [.bd0, .bd1, .bd2] 0 where
  nodup := by decide
  target_lt := by decide
  chained i b b' hb hb' := by
    have hi : i < 2 := Nat.lt_of_succ_lt_succ (List.getElem?_eq_some_iff.1 hb').1
    interval_cases i <;> cases hb <;> cases hb' <;> rfl
  back b b' hb hb' := by
    cases hb
    cases hb'
    rfl

theorem evenChain_stream :
    (evenChain.setSuccessor .bd1 .bd0).stream .bd0 = evenChain.stream .bd0 :=
  (foldDMAStart_stream_iff evenChain_loopsBack rfl rfl).mpr (.inr (by decide))

/-- **A chain that does not end with a whole pattern** is folded all the same: the two `a` in a row
are lost. -/
theorem oddChain_stream :
    oddChain.LoopsBack [.bd0, .bd1, .bd2] 0 ∧
      oddChain.foldDMAStart .bd0 = some (oddChain.setSuccessor .bd1 .bd0) ∧
      oddChain.stream .bd0 3 = some [0] ∧
      (oddChain.setSuccessor .bd1 .bd0).stream .bd0 3 = some [1] :=
  ⟨oddChain_loopsBack, rfl, rfl, rfl⟩

end DmaProgram

end MlirAie.Fold
