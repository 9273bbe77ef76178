import MlirAie.Lib.Extremes
import MlirAie.StaticBd.Sound

/-!
# When the pass finds ids

Every request takes the lowest free id in reach, so at any time the ids handed out in reach of a
channel are the lowest of those that are neither reserved nor pinned so far. A program that pins one
of them later fails; nothing else does where there are ids that fit.

* `collectPinned_iff`: the pinned ids of a program are free;
* **`assignPrograms_iff`**: the programs of a tile;
* **`assignBufferDescriptorIDs_complete_iff`**.
-/

namespace MlirAie.StaticBd

open BdIdGenerator MlirAie.Lib
open scoped Classical

section Reach

variable (acc : ℕ → ℤ → Bool) (N : ℕ)

/-- The ids that a channel reaches together with `x`. -/
noncomputable def mates (x : ℕ) : Finset ℕ :=
  (Finset.range N).filter fun y => ∃ c, acc x c = true ∧ acc y c = true

/-- The requests without a pinned id whose channel reaches `x`. -/
def unpinnedRequests (reqs : Requests) (x : ℕ) : ℕ :=
  reqs.countP fun req => req.2.bdId.isNone && acc x req.1

/-- The descriptors of programs without a pinned id that a channel reaching `x` has in a chain. -/
noncomputable def unpinned (ps : List Program) (x : ℕ) : ℕ :=
  (ps.flatMap fun p => p.channels.zip p.bds).countP fun entry =>
    entry.2.bdId = none ∧ ∃ c ∈ entry.1, acc x c = true

/-- The ids `R` are reserved or pinned, the ids `T` handed out; of those in reach with `x` these
are the lowest `n x`. -/
structure Handed (gen : BdIdGenerator) (R T : Finset ℕ) (n : ℕ → ℕ) : Prop where
  accessible : gen.accessible = acc
  numBDs : gen.numBDs = N
  taken : ∀ y, y ∈ gen.alreadyAssigned ↔ y ∈ R ∨ y ∈ T
  disjoint : Disjoint R T
  lowest : ∀ x, IsLowest (mates acc N x \ R) (T ∩ mates acc N x)
  count : ∀ x, (T ∩ mates acc N x).card = n x

variable {acc N}

theorem mem_mates {x y : ℕ} :
    y ∈ mates acc N x ↔ y < N ∧ ∃ c, acc x c = true ∧ acc y c = true := by
  rw [mates, Finset.mem_filter, Finset.mem_range]

/-- Channels with an id in common reach the same ids. -/
def Classes (acc : ℕ → ℤ → Bool) : Prop :=
  ∀ x c c', acc x c = true → acc x c' = true → ∀ y, acc y c = acc y c'

variable (hacc : Classes acc)

include hacc

theorem Classes.mem_mates {x c} (hx : acc x c = true) {y : ℕ} :
    y ∈ mates acc N x ↔ y < N ∧ acc y c = true := by
  rw [StaticBd.mem_mates]
  refine and_congr_right fun _ => ⟨?_, fun hy => ⟨c, hx, hy⟩⟩
  rintro ⟨c', hx', hy'⟩
  rw [hacc x c c' hx hx' y]
  exact hy'

variable {gen gen' : BdIdGenerator} {R T : Finset ℕ} {n : ℕ → ℕ}

/-! ## One program -/

/-- **One request** takes the lowest id that is left. -/
theorem Handed.next (h : Handed acc N gen R T n) {c : ℤ} {y : ℕ}
    (hnext : gen.nextBdId c = some (y, gen')) :
    Handed acc N gen' R (insert y T) fun x => n x + if acc x c then 1 else 0 := by
  obtain ⟨⟨hlt, hfree, hreach, hleast⟩, heq⟩ := nextBdId_eq_some.1 hnext
  dsimp only at hlt hfree hreach hleast heq
  subst heq
  rw [h.taken, not_or] at hfree
  rw [h.accessible] at hreach hleast
  rw [h.numBDs] at hlt
  -- the class of the new id is that of every id the channel reaches
  have hclass : ∀ x, y ∈ mates acc N x ↔ acc x c = true := fun x => by
    rw [StaticBd.mem_mates]
    constructor
    · rintro ⟨-, c', hx, hy⟩
      rw [hacc y c c' hreach hy x]
      exact hx
    · exact fun hx => ⟨hlt, c, hx, hreach⟩
  refine ⟨h.accessible, h.numBDs, fun z => ?_, ?_, fun x => ?_, fun x => ?_⟩
  · rw [assignBdId, List.mem_cons, h.taken, Finset.mem_insert]
    tauto
  · exact Finset.disjoint_insert_right.2 ⟨hfree.1, h.disjoint⟩
  · by_cases hx : acc x c = true
    · rw [Finset.insert_inter_of_mem ((hclass x).2 hx)]
      refine (h.lowest x).insert (Finset.mem_sdiff.2 ⟨(hclass x).2 hx, hfree.1⟩) ?_
      intro z hz hzy
      obtain ⟨hz, hzR⟩ := Finset.mem_sdiff.1 hz
      have hzc := ((hacc.mem_mates hx).1 hz).2
      have htaken := (h.taken z).1 (hleast z hzy hzc)
      exact Finset.mem_inter.2 ⟨htaken.resolve_left hzR, hz⟩
    · rw [Finset.insert_inter_of_notMem fun hy => hx ((hclass x).1 hy)]
      exact h.lowest x
  · by_cases hx : acc x c = true
    · rw [Finset.insert_inter_of_mem ((hclass x).2 hx), if_pos hx, Finset.card_insert_of_notMem,
        h.count]
      exact fun hy => hfree.2 (Finset.mem_inter.1 hy).1
    · rw [Finset.insert_inter_of_notMem fun hy => hx ((hclass x).1 hy), if_neg hx, h.count,
        Nat.add_zero]

theorem Handed.assignSeq {reqs : Requests} {bds : List DMABDOp} (h : Handed acc N gen R T n)
    (hseq : assignSeq reqs gen = .ok (bds, gen')) :
    ∃ T', Handed acc N gen' R T' fun x => n x + unpinnedRequests acc reqs x := by
  induction reqs generalizing gen T n bds with
  | nil =>
    cases hseq
    exact ⟨T, h⟩
  | cons req reqs ih =>
    obtain ⟨bd, gen₁, rest, hbd, hrest, rfl⟩ := assignSeq_cons_eq_ok.1 hseq
    rcases assignBd_eq_ok.1 hbd with ⟨bdId, hid, -, rfl, rfl⟩ | ⟨bdId, hid, hnext, rfl⟩
    · obtain ⟨T', hT'⟩ := ih h hrest
      refine ⟨T', ?_⟩
      simpa [unpinnedRequests, hid] using hT'
    · obtain ⟨T', hT'⟩ := ih (h.next hacc hnext) hrest
      refine ⟨T', ?_⟩
      have hcount : (fun x => n x + unpinnedRequests acc (req :: reqs) x) = fun x =>
          (n x + if acc x req.1 then 1 else 0) + unpinnedRequests acc reqs x := by
        funext x
        simp only [unpinnedRequests, List.countP_cons, hid, Option.isNone_none, Bool.true_and]
        omega
      rw [hcount]
      exact hT'

theorem exists_assignSeq {reqs : Requests} (h : Handed acc N gen R T n)
    (hpins : ∀ req ∈ reqs, ∀ bdId, req.2.bdId = some bdId → acc bdId req.1 = true)
    (hreach : ∀ req ∈ reqs, ∃ x, acc x req.1 = true)
    (hroom : ∀ x, n x + unpinnedRequests acc reqs x ≤ (mates acc N x \ R).card) :
    ∃ r, StaticBd.assignSeq reqs gen = .ok r := by
  induction reqs generalizing gen T n with
  | nil => exact ⟨_, rfl⟩
  | cons req reqs ih =>
    obtain ⟨hpin, hpins⟩ := List.forall_mem_cons.1 hpins
    obtain ⟨hown, hreach⟩ := List.forall_mem_cons.1 hreach
    have hcount : ∀ x, unpinnedRequests acc (req :: reqs) x =
        unpinnedRequests acc reqs x + if req.2.bdId.isNone && acc x req.1 then 1 else 0 :=
      fun x => List.countP_cons
    cases hid : req.2.bdId with
    | some bdId =>
      have hbd : gen.assignBd req.1 req.2 = .ok (req.2, gen) :=
        assignBd_eq_ok.2 (Or.inl ⟨bdId, hid, by rw [h.accessible]; exact hpin bdId hid, rfl, rfl⟩)
      obtain ⟨⟨rest, gen₂⟩, hrest⟩ := ih h hpins hreach fun x => by
        have := hroom x
        rw [hcount] at this
        omega
      exact ⟨_, assignSeq_cons_eq_ok.2 ⟨_, _, _, hbd, hrest, rfl⟩⟩
    | none =>
      cases hnext : gen.nextBdId req.1 with
      | none =>
        obtain ⟨x, hx⟩ := hown
        rw [nextBdId_eq_none, h.numBDs, h.accessible] at hnext
        have hsub : mates acc N x \ R ⊆ T ∩ mates acc N x := fun y hy => by
          obtain ⟨hy, hyR⟩ := Finset.mem_sdiff.1 hy
          obtain ⟨hlt, hyc⟩ := (hacc.mem_mates hx).1 hy
          have htaken := (h.taken y).1 (hnext y hlt hyc)
          exact Finset.mem_inter.2 ⟨htaken.resolve_left hyR, hy⟩
        have hle := Finset.card_le_card hsub
        rw [h.count] at hle
        have := hroom x
        rw [hcount, hid, hx] at this
        simp at this
        omega
      | some r =>
        obtain ⟨bdId, gen₁⟩ := r
        have hbd : gen.assignBd req.1 req.2 = .ok ({ req.2 with bdId := some bdId }, gen₁) :=
          assignBd_eq_ok.2 (Or.inr ⟨bdId, hid, hnext, rfl⟩)
        obtain ⟨⟨rest, gen₂⟩, hrest⟩ := ih (h.next hacc hnext) hpins hreach fun x => by
          have := hroom x
          rw [hcount, hid] at this
          simpa [Nat.add_assoc, Nat.add_comm] using this
        exact ⟨_, assignSeq_cons_eq_ok.2 ⟨_, _, _, hbd, hrest, rfl⟩⟩

omit hacc in
/-- The pinned ids of a program are taken. -/
theorem Handed.collect (h : Handed acc N gen R T n) {bds : List DMABDOp}
    (hpinned : (collectPinned bds gen).1 = []) :
    Handed acc N (collectPinned bds gen).2 (R ∪ (ids bds).toFinset) T n := by
  obtain ⟨hcollect, heq⟩ := collectPinned_eq bds gen
  obtain ⟨-, hfree⟩ := hcollect.1 hpinned
  rw [heq hpinned]
  have hdisjoint : Disjoint (ids bds).toFinset T := Finset.disjoint_left.2 fun y hy hT =>
    hfree y (List.mem_toFinset.1 hy) ((h.taken y).2 (Or.inr hT))
  refine ⟨h.accessible, h.numBDs, fun y => ?_, ?_, fun x => ?_, h.count⟩
  · rw [List.mem_append, List.mem_reverse, h.taken, Finset.mem_union, List.mem_toFinset]
    tauto
  · exact Finset.disjoint_union_left.2 ⟨h.disjoint, hdisjoint⟩
  · have hsplit : mates acc N x \ (R ∪ (ids bds).toFinset) =
        (mates acc N x \ R) \ (ids bds).toFinset := by
      ext y
      simp only [Finset.mem_sdiff, Finset.mem_union, not_or, and_assoc]
    rw [hsplit]
    exact (h.lowest x).sdiff (hdisjoint.mono_right Finset.inter_subset_left)

/-- **The pinned ids of a program are free** where fewer were handed out than lie below. -/
theorem collectPinned_iff (h : Handed acc N gen R T n) {bds : List DMABDOp}
    (hnodup : (ids bds).Nodup)
    (hids : ∀ x ∈ ids bds, x ∉ R ∧ x < N ∧ ∃ c, acc x c = true) :
    (collectPinned bds gen).1 = [] ↔
      ∀ x ∈ ids bds, n x ≤ ((mates acc N x \ R).filter (· < x)).card := by
  rw [(collectPinned_eq bds gen).1, and_iff_right hnodup]
  refine forall₂_congr fun x hx => ?_
  obtain ⟨hR, hlt, c, hc⟩ := hids x hx
  have hmem : x ∈ mates acc N x := (hacc.mem_mates hc).2 ⟨hlt, hc⟩
  rw [h.taken, or_iff_right hR, ← not_lt, ← h.count x,
    ← (h.lowest x).mem_iff (Finset.mem_sdiff.2 ⟨hmem, hR⟩), Finset.mem_inter, and_iff_left hmem]

/-! ## The programs of a tile -/

omit hacc in
theorem unpinned_cons (p : Program) (ps : List Program) (x : ℕ) :
    unpinned acc (p :: ps) x = unpinned acc [p] x + unpinned acc ps x := by
  rw [unpinned, unpinned, unpinned, List.flatMap_cons, List.countP_append, List.flatMap_cons,
    List.flatMap_nil, List.append_nil]

/-- A program whose requests are served: its pinned ids are in reach, and some id is in reach of
each of the others. -/
structure Servable (acc : ℕ → ℤ → Bool) (p : Program) (reqs : Requests) : Prop where
  requests : p.requests = some reqs
  pins : ∀ req ∈ reqs, ∀ bdId, req.2.bdId = some bdId → acc bdId req.1 = true
  reach : ∀ req ∈ reqs, ∃ x, acc x req.1 = true
  count : ∀ x, unpinnedRequests acc reqs x = unpinned acc [p] x

structure Roomy (acc : ℕ → ℤ → Bool) (N : ℕ) (R : Finset ℕ) (n : ℕ → ℕ) (ps : List Program) :
    Prop where
  nodup : (ids (ps.flatMap Program.bds)).Nodup
  pinned : ∀ x ∈ ids (ps.flatMap Program.bds), x ∉ R ∧ x < N ∧ ∃ c, acc x c = true
  room : ∀ x, n x + unpinned acc ps x ≤
    (mates acc N x \ (R ∪ (ids (ps.flatMap Program.bds)).toFinset)).card

omit hacc in
theorem Roomy.tail {p : Program} {ps : List Program} (h : Roomy acc N R n (p :: ps)) :
    Roomy acc N (R ∪ (ids p.bds).toFinset) (fun x => n x + unpinned acc [p] x) ps := by
  have hids : ids ((p :: ps).flatMap Program.bds) =
      ids p.bds ++ ids (ps.flatMap Program.bds) := by
    rw [List.flatMap_cons, ids_append]
  obtain ⟨hnodup, hpinned, hroom⟩ := h
  rw [hids] at hnodup hpinned hroom
  obtain ⟨-, hrest, hapart⟩ := List.nodup_append.1 hnodup
  refine ⟨hrest, fun x hx => ?_, fun x => ?_⟩
  · obtain ⟨hR, hlt, hc⟩ := hpinned x (List.mem_append_right _ hx)
    refine ⟨fun hmem => ?_, hlt, hc⟩
    rcases Finset.mem_union.1 hmem with hmem | hmem
    · exact hR hmem
    · exact hapart x (List.mem_toFinset.1 hmem) x hx rfl
  · have := hroom x
    rw [unpinned_cons, List.toFinset_append, ← Finset.union_assoc] at this
    omega

theorem assignProgram_iff {p : Program} {ps : List Program} {reqs : Requests}
    (h : Handed acc N gen R T n) (hservable : Servable acc p reqs)
    (hroomy : Roomy acc N R n (p :: ps)) :
    (∃ r, assignProgram p gen = .ok r) ↔
      ∀ x ∈ ids p.bds, n x ≤ ((mates acc N x \ R).filter (· < x)).card := by
  have hids : ids ((p :: ps).flatMap Program.bds) =
      ids p.bds ++ ids (ps.flatMap Program.bds) := by
    rw [List.flatMap_cons, ids_append]
  have hnodup := hroomy.nodup
  have hpinned := hroomy.pinned
  rw [hids] at hnodup hpinned
  rw [← collectPinned_iff hacc h (List.nodup_append.1 hnodup).1 fun x hx =>
    hpinned x (List.mem_append_left _ hx)]
  constructor
  · rintro ⟨⟨p', gen'⟩, hp⟩
    exact (assignProgram_eq_ok.1 hp).1
  · intro hfree
    obtain ⟨⟨bds, gen₂⟩, hseq⟩ := exists_assignSeq hacc (h.collect hfree) hservable.pins
      hservable.reach fun x => by
        have hroom := hroomy.room x
        rw [unpinned_cons, ← hservable.count, hids, List.toFinset_append, ← Finset.union_assoc]
          at hroom
        refine (Nat.le_trans ?_ hroom).trans (Finset.card_le_card ?_)
        · omega
        · exact Finset.sdiff_subset_sdiff (Finset.Subset.refl _) Finset.subset_union_left
    exact ⟨_, assignProgram_eq_ok.2 ⟨hfree, reqs, bds, hservable.requests, hseq, rfl⟩⟩

theorem Handed.assignProgram {p p' : Program} {reqs : Requests} (h : Handed acc N gen R T n)
    (hservable : Servable acc p reqs) (hp : assignProgram p gen = .ok (p', gen')) :
    ∃ T', Handed acc N gen' (R ∪ (ids p.bds).toFinset) T' fun x => n x + unpinned acc [p] x := by
  obtain ⟨hpinned, reqs', bds, hreqs, hseq, -⟩ := assignProgram_eq_ok.1 hp
  rw [hservable.requests] at hreqs
  cases hreqs
  obtain ⟨T', hT'⟩ := (h.collect hpinned).assignSeq hacc hseq
  refine ⟨T', ?_⟩
  simpa only [hservable.count] using hT'

/-- **The programs of a tile** succeed where every pinned id is free when its turn comes: fewer
ids were handed out in its class than lie below it. -/
theorem assignPrograms_iff {ps : List Program} (h : Handed acc N gen R T n)
    (hservable : ∀ p ∈ ps, ∃ reqs, Servable acc p reqs) (hroomy : Roomy acc N R n ps) :
    (∃ r, assignPrograms ps gen = .ok r) ↔ ∀ before p after, ps = before ++ p :: after →
      ∀ x ∈ ids p.bds, n x + unpinned acc before x ≤
        ((mates acc N x \ (R ∪ (ids (before.flatMap Program.bds)).toFinset)).filter
          (· < x)).card := by
  induction ps generalizing gen R T n with
  | nil =>
    refine iff_of_true ⟨_, rfl⟩ fun before p after heq => ?_
    cases before <;> cases heq
  | cons p ps ih =>
    obtain ⟨⟨reqs, hown⟩, hservable⟩ := List.forall_mem_cons.1 hservable
    have hfirst := assignProgram_iff hacc h hown hroomy
    have hzero : ∀ x, n x + unpinned acc [] x = n x := fun x => Nat.add_zero _
    have hsplit : ∀ (before : List Program) (x : ℕ),
        n x + unpinned acc (p :: before) x = n x + unpinned acc [p] x + unpinned acc before x ∧
        R ∪ (ids ((p :: before).flatMap Program.bds)).toFinset =
          R ∪ (ids p.bds).toFinset ∪ (ids (before.flatMap Program.bds)).toFinset := by
      refine fun before x => ⟨by rw [unpinned_cons]; omega, ?_⟩
      rw [List.flatMap_cons, ids_append, List.toFinset_append, Finset.union_assoc]
    have hempty : R ∪ (ids (([] : List Program).flatMap Program.bds)).toFinset = R :=
      Finset.union_empty R
    constructor
    · rintro ⟨⟨ps', gen'⟩, hps⟩ before q after heq
      obtain ⟨p', gen₁, rest, hp, hrest, -⟩ := assignPrograms_cons_eq_ok.1 hps
      cases before with
      | nil =>
        cases heq
        intro x hx
        rw [hzero, hempty]
        exact hfirst.1 ⟨_, hp⟩ x hx
      | cons b before =>
        obtain ⟨rfl, hrest'⟩ := List.cons.inj heq
        obtain ⟨T', hT'⟩ := h.assignProgram hacc hown hp
        intro x hx
        rw [(hsplit before x).1, (hsplit before x).2]
        exact (ih hT' hservable hroomy.tail).1 ⟨_, hrest⟩ before q after hrest' x hx
    · intro hall
      obtain ⟨⟨p', gen₁⟩, hp⟩ := hfirst.2 fun x hx => by
        have hx := hall [] p ps rfl x hx
        rwa [hzero, hempty] at hx
      obtain ⟨T', hT'⟩ := h.assignProgram hacc hown hp
      obtain ⟨⟨rest, gen₂⟩, hrest⟩ := (ih hT' hservable hroomy.tail).2
        fun before q after heq x hx => by
          have hx := hall (p :: before) q after (by rw [heq, List.cons_append]) x hx
          rwa [(hsplit before x).1, (hsplit before x).2] at hx
      exact ⟨_, assignPrograms_cons_eq_ok.2 ⟨p', gen₁, rest, hp, hrest, rfl⟩⟩

/-! ## Room where some ids fit -/

/-- A descriptor, with the channels whose chains hold it, and the descriptor with its id. -/
def FitsAt (acc : ℕ → ℤ → Bool) (entry : Set ℤ × DMABDOp) (bd : DMABDOp) : Prop :=
  Keeps entry.2 bd ∧ ∀ bdId, bd.bdId = some bdId → ∀ c ∈ entry.1, acc bdId c = true

omit hacc in
theorem ids_sublist {bds bds' : List DMABDOp} (h : List.Forall₂ Keeps bds bds') :
    (ids bds).Sublist (ids bds') := by
  induction h with
  | nil => exact .slnil
  | @cons bd bd' bds bds' hkeeps _ ih =>
    obtain ⟨y, hy⟩ := Option.isSome_iff_exists.1 hkeeps.1
    have hids' : ids (bd' :: bds') = y :: ids bds' := List.filterMap_cons_some hy
    cases hid : bd.bdId with
    | none =>
      have hids : ids (bd :: bds) = ids bds := List.filterMap_cons_none hid
      rw [hids, hids']
      exact ih.cons y
    | some x =>
      have hids : ids (bd :: bds) = x :: ids bds := List.filterMap_cons_some hid
      have hxy := hkeeps.2 x hid
      rw [hy] at hxy
      cases hxy
      rw [hids, hids']
      exact ih.cons_cons y

omit hacc in
/-- The ids of the descriptors that are not pinned are as many, and apart from the pinned ones. -/
theorem unpinned_le {entries : List (Set ℤ × DMABDOp)} {bds : List DMABDOp}
    (h : List.Forall₂ (FitsAt acc) entries bds) (hnodup : (ids bds).Nodup)
    (hlt : ∀ y ∈ ids bds, y < N) (x : ℕ) :
    entries.countP (fun entry => entry.2.bdId = none ∧ ∃ c ∈ entry.1, acc x c = true) ≤
      ((mates acc N x ∩ (ids bds).toFinset) \
        (ids (entries.map Prod.snd)).toFinset).card := by
  induction h with
  | nil => exact Nat.zero_le _
  | @cons entry bd entries bds hfits hrest ih =>
    obtain ⟨y, hy⟩ := Option.isSome_iff_exists.1 hfits.1.1
    have hids' : ids (bd :: bds) = y :: ids bds := List.filterMap_cons_some hy
    rw [hids', List.nodup_cons] at hnodup
    rw [hids', List.forall_mem_cons] at hlt
    have hle := ih hnodup.2 hlt.2
    have hsub : (ids (entries.map Prod.snd)).Sublist (ids bds) :=
      ids_sublist (List.forall₂_map_left_iff.2 (hrest.imp fun _ _ h => h.1))
    rw [hids', List.countP_cons, List.map_cons]
    cases hid : entry.2.bdId with
    | some z =>
      have hids : ids (entry.2 :: entries.map Prod.snd) = z :: ids (entries.map Prod.snd) :=
        List.filterMap_cons_some hid
      have hzy := hfits.1.2 z hid
      rw [hy] at hzy
      cases hzy
      rw [hids, if_neg (by simp), Nat.add_zero]
      refine hle.trans (Finset.card_le_card fun w hw => ?_)
      simp only [Finset.mem_sdiff, Finset.mem_inter, List.mem_toFinset, List.mem_cons,
        not_or] at hw ⊢
      exact ⟨⟨hw.1.1, Or.inr hw.1.2⟩, fun hwy => hnodup.1 (hwy ▸ hw.1.2), hw.2⟩
    | none =>
      have hids : ids (entry.2 :: entries.map Prod.snd) = ids (entries.map Prod.snd) :=
        List.filterMap_cons_none hid
      rw [hids, List.toFinset_cons]
      have hgrow : (mates acc N x ∩ (ids bds).toFinset) \ (ids (entries.map Prod.snd)).toFinset ⊆
          (mates acc N x ∩ insert y (ids bds).toFinset) \
            (ids (entries.map Prod.snd)).toFinset :=
        Finset.sdiff_subset_sdiff (Finset.inter_subset_inter_left (Finset.subset_insert _ _))
          (Finset.Subset.refl _)
      by_cases hc : ∃ c ∈ entry.1, acc x c = true
      · obtain ⟨c, hmem, hx⟩ := hc
        rw [if_pos (by simpa using ⟨c, hmem, hx⟩)]
        refine (Nat.succ_le_succ hle).trans (Finset.card_lt_card
          (Finset.ssubset_iff_of_subset hgrow |>.2 ⟨y, ?_, ?_⟩))
        · refine Finset.mem_sdiff.2 ⟨Finset.mem_inter.2
            ⟨StaticBd.mem_mates.2 ⟨hlt.1, c, hx, hfits.2 y hy c hmem⟩,
              Finset.mem_insert_self _ _⟩, fun hpin => ?_⟩
          exact hnodup.1 (hsub.subset (List.mem_toFinset.1 hpin))
        · intro hmem
          have hin := (Finset.mem_inter.1 (Finset.mem_sdiff.1 hmem).1).2
          exact hnodup.1 (List.mem_toFinset.1 hin)
      · rw [if_neg (by simpa using hc), Nat.add_zero]
        exact hle.trans (Finset.card_le_card hgrow)

end Reach

/-- Every descriptor is in a chain, and followed as it has to be. -/
structure Program.Wired (p : Program) : Prop where
  followed : p.Followed
  inChain : ∀ cs ∈ p.channels, cs.Nonempty

section Fits

variable {gen : BdIdGenerator} {reserved : List ℕ} {ps ps' : List Program}

theorem Fits.entries (h : Fits gen reserved ps ps') : List.Forall₂ (FitsAt gen.accessible)
    (ps.flatMap fun p => p.channels.zip p.bds) (ps'.flatMap Program.bds) := by
  obtain ⟨hsame, -, -, hreaches⟩ := h
  induction hsame with
  | nil => exact .nil
  | @cons p p' ps ps' hp _ ih =>
    obtain ⟨hown, hreaches⟩ := List.forall_mem_cons.1 hreaches
    rw [List.flatMap_cons, List.flatMap_cons]
    refine List.rel_append ?_ (ih hreaches)
    have hchannels : p'.channels = p.channels := by
      rw [← channels_mapBds DMABDOp.erased, hp.1, channels_mapBds]
    rw [hchannels] at hown
    have hlen := length_channels p
    refine List.forall₂_iff_get.2 ⟨?_, fun i hi hi' => ?_⟩
    · rw [List.length_zip, hlen, Nat.min_self, hp.2.length_eq]
    · rw [List.length_zip, hlen, Nat.min_self] at hi
      rw [List.get_eq_getElem, List.get_eq_getElem, List.getElem_zip]
      exact ⟨(List.forall₂_iff_get.1 hp.2).2 i hi hi',
        (List.forall₂_iff_get.1 hown).2 i (hlen ▸ hi) hi'⟩

theorem map_snd_entries (ps : List Program) :
    (ps.flatMap fun p => p.channels.zip p.bds).map Prod.snd = ps.flatMap Program.bds := by
  rw [List.map_flatMap]
  congr 1
  funext p
  exact List.map_snd_zip (length_channels p).ge

/-- **Where some ids fit there is room**, on a tile of the family. -/
theorem Fits.roomy (h : Fits gen reserved ps ps') (hwired : ∀ p ∈ ps, p.Wired) :
    Roomy gen.accessible gen.numBDs reserved.toFinset (fun _ => 0) ps := by
  have hentries := h.entries
  have hkeeps : List.Forall₂ Keeps (ps.flatMap Program.bds) (ps'.flatMap Program.bds) := by
    rw [← map_snd_entries, List.forall₂_map_left_iff]
    exact hentries.imp fun _ _ h => h.1
  have hsub := ids_sublist hkeeps
  refine ⟨h.distinct.sublist hsub, fun x hx => ?_, fun x => ?_⟩
  · obtain ⟨hlt, hfree⟩ := h.free x (hsub.subset hx)
    refine ⟨fun hR => hfree (List.mem_toFinset.1 hR), hlt, ?_⟩
    obtain ⟨bd, hbd, hid⟩ := mem_ids.1 hx
    rw [← map_snd_entries] at hbd
    obtain ⟨entry, hentry, rfl⟩ := List.mem_map.1 hbd
    obtain ⟨p, hp, hzip⟩ := List.mem_flatMap.1 hentry
    obtain ⟨c, hc⟩ := (hwired p hp).inChain entry.1 (List.of_mem_zip hzip).1
    obtain ⟨i, hi, rfl⟩ := List.getElem_of_mem hentry
    have hi' := hentries.length_eq ▸ hi
    have hfits := (List.forall₂_iff_get.1 hentries).2 i hi hi'
    exact ⟨c, hfits.2 x (hfits.1.2 x hid) c hc⟩
  · rw [Nat.zero_add]
    refine (unpinned_le hentries h.distinct (fun y hy => (h.free y hy).1) x).trans
      (Finset.card_le_card fun y hy => ?_)
    rw [map_snd_entries] at hy
    simp only [Finset.mem_sdiff, Finset.mem_inter, List.mem_toFinset, Finset.mem_union,
      not_or] at hy ⊢
    exact ⟨hy.1.1, (h.free y hy.1.2).2, hy.2⟩

/-- Where some ids fit the channels that share a descriptor reach the same ids. -/
theorem Fits.agrees (hacc : Classes gen.accessible) (h : Fits gen reserved ps ps') {p : Program}
    (hp : p ∈ ps) : p.Agrees gen := by
  intro cs hcs c hc c' hc'
  obtain ⟨i, hi, rfl⟩ := List.getElem_of_mem hcs
  have hlen := length_channels p
  have hzip : (p.channels[i], p.bds[i]) ∈ ps.flatMap fun p => p.channels.zip p.bds :=
    List.mem_flatMap.2 ⟨p, hp, List.mem_iff_getElem.2
      ⟨i, by rw [List.length_zip, hlen, Nat.min_self]; exact hlen ▸ hi, List.getElem_zip⟩⟩
  obtain ⟨j, hj, hget⟩ := List.getElem_of_mem hzip
  have hj' := h.entries.length_eq ▸ hj
  have hfits := (List.forall₂_iff_get.1 h.entries).2 j hj hj'
  rw [List.get_eq_getElem, List.get_eq_getElem, hget] at hfits
  obtain ⟨y, hy⟩ := Option.isSome_iff_exists.1 hfits.1.1
  exact hacc y c c' (hfits.2 y hy c hc) (hfits.2 y hy c' hc')

theorem countP_requests {acc : ℕ → ℤ → Bool} {reqs : Requests} {channels : List (Set ℤ)}
    (h : List.Forall₂ (fun req cs => req.1 ∈ cs) reqs channels)
    (hagrees : ∀ cs ∈ channels, ∀ c ∈ cs, ∀ c' ∈ cs, ∀ y, acc y c = acc y c') (x : ℕ) :
    unpinnedRequests acc reqs x = (channels.zip (reqs.map Prod.snd)).countP fun entry =>
      entry.2.bdId = none ∧ ∃ c ∈ entry.1, acc x c = true := by
  unfold unpinnedRequests
  induction h with
  | nil => rfl
  | @cons req cs reqs channels hmem _ ih =>
    obtain ⟨hown, hagrees⟩ := List.forall_mem_cons.1 hagrees
    rw [List.map_cons, List.zip_cons_cons, List.countP_cons, List.countP_cons, ih hagrees]
    congr 1
    have hiff : (∃ c ∈ cs, acc x c = true) ↔ acc x req.1 = true :=
      ⟨fun ⟨c, hc, hx⟩ => by rwa [hown _ hmem c hc], fun hx => ⟨_, hmem, hx⟩⟩
    simp [hiff, Option.isNone_iff_eq_none]

/-- **Where some ids fit every request can be served.** -/
theorem Fits.servable (hacc : Classes gen.accessible) (h : Fits gen reserved ps ps')
    {p : Program} (hp : p ∈ ps) (hwired : p.Wired) :
    ∃ reqs, Servable gen.accessible p reqs := by
  obtain ⟨reqs, hreqs⟩ := exists_requests hwired.inChain
  have hchan := requests_channels hwired.followed hreqs
  have hagrees := h.agrees hacc hp
  have hbds := map_snd_requests hreqs
  have hreq : ∀ req ∈ reqs, ∃ cs, (cs, req.2) ∈ p.channels.zip p.bds ∧ req.1 ∈ cs := by
    intro req hreq
    obtain ⟨i, hi, rfl⟩ := List.getElem_of_mem hreq
    have hi' : i < p.channels.length := hchan.length_eq ▸ hi
    refine ⟨p.channels[i], List.mem_iff_getElem.2 ⟨i, ?_, ?_⟩,
      (List.forall₂_iff_get.1 hchan).2 i hi hi'⟩
    · rw [List.length_zip, length_channels, Nat.min_self]
      exact length_channels p ▸ hi'
    · rw [List.getElem_zip, Prod.mk.injEq]
      refine ⟨rfl, ?_⟩
      simp only [← hbds, List.getElem_map]
  have hfit : ∀ req ∈ reqs, ∃ y, gen.accessible y req.1 = true ∧
      ∀ bdId, req.2.bdId = some bdId → gen.accessible bdId req.1 = true := by
    intro req hmem
    obtain ⟨cs, hzip, hin⟩ := hreq req hmem
    obtain ⟨j, hj, hget⟩ := List.getElem_of_mem
      (List.mem_flatMap.2 ⟨p, hp, hzip⟩ : _ ∈ ps.flatMap fun p => p.channels.zip p.bds)
    have hj' := h.entries.length_eq ▸ hj
    have hfits := (List.forall₂_iff_get.1 h.entries).2 j hj hj'
    rw [List.get_eq_getElem, List.get_eq_getElem, hget] at hfits
    obtain ⟨y, hy⟩ := Option.isSome_iff_exists.1 hfits.1.1
    exact ⟨y, hfits.2 y hy _ hin, fun bdId hid => hfits.2 bdId (hfits.1.2 bdId hid) _ hin⟩
  refine ⟨reqs, hreqs, fun req hmem => ?_, fun req hmem => ?_, fun x => ?_⟩
  · obtain ⟨-, -, hpin⟩ := hfit req hmem
    exact hpin
  · obtain ⟨y, hy, -⟩ := hfit req hmem
    exact ⟨y, hy⟩
  · rw [countP_requests hchan hagrees, hbds, unpinned, List.flatMap_singleton]

end Fits

/-! ## The pass -/

def Device.onTile (d : Device) (tile : ℤ × ℤ) : Device :=
  { d with memOps := d.memOps.filter fun memOp => memOp.tile = tile }

theorem programsOn_onTile (d : Device) (tile tile' : ℤ × ℤ) :
    programsOn tile' (d.onTile tile).memOps =
      if tile' = tile then programsOn tile d.memOps else [] := by
  rw [programsOn, Device.onTile, List.filter_filter]
  by_cases h : tile' = tile
  · subst h
    simp only [Bool.and_self, if_true]
    rfl
  · rw [if_neg h, List.map_eq_nil_iff, List.filter_eq_nil_iff]
    intro memOp _ hmem
    simp only [Bool.and_eq_true, decide_eq_true_eq] at hmem
    exact h (hmem.1.symm.trans hmem.2)

theorem wired_of_assigned {gen : BdIdGenerator} {p p' : Program} (h : AssignedAs gen p p')
    (hfollowed : p.Followed) : p.Wired := by
  obtain ⟨reqs, hreqs, -⟩ := h.reaches
  have hchan := requests_channels hfollowed hreqs
  refine ⟨hfollowed, fun cs hcs => ?_⟩
  obtain ⟨i, hi, rfl⟩ := List.getElem_of_mem hcs
  exact ⟨_, (List.forall₂_iff_get.1 hchan).2 i (hchan.length_eq ▸ hi) hi⟩

theorem exists_assign_iff {d : Device} : (∃ d', assignBufferDescriptorIDs d = .ok d') ↔
    ∀ tile, (∃ r, assignPrograms (programsOn tile d.memOps) (d.gen tile) = .ok r) ∧
      ∀ p ∈ programsOn tile d.memOps, p.Followed := by
  constructor
  · rintro ⟨d', h⟩ tile
    obtain ⟨memOps, memOps', hmem, hset, rfl⟩ := assignBufferDescriptorIDs_eq_ok.1 h
    obtain ⟨gen', hprograms⟩ := (assignMemOps_onTile hmem).2 tile
    refine ⟨⟨_, hprograms⟩, fun p hp => ?_⟩
    have hall := (assignPrograms_spec hprograms).1
    have hnext := programsOn_setNext hset tile
    obtain ⟨i, hi, rfl⟩ := List.getElem_of_mem hp
    have hi₁ := hall.length_eq ▸ hi
    have hsame := ((List.forall₂_iff_get.1 hall).2 i hi hi₁).same
    have hfollowed := (setNext_spec ((List.forall₂_iff_get.1 hnext).2 i hi₁
      (hnext.length_eq ▸ hi₁))).1
    rw [List.get_eq_getElem, List.get_eq_getElem] at hsame
    rw [← followed_mapBds DMABDOp.unassigned, ← hsame, followed_mapBds]
    exact hfollowed
  · intro hall
    obtain ⟨memOps, hmem⟩ := @exists_assignMemOps d d.memOps (fun _ => none) fun tile =>
      (hall tile).1
    have hset : ∀ memOp ∈ memOps, ∃ memOp', memOp.setNext = .ok memOp' := by
      intro memOp hmemOp
      obtain ⟨gen', hprograms⟩ := (assignMemOps_onTile hmem).2 memOp.tile
      have hassigned := (assignPrograms_spec hprograms).1
      have hp : memOp.program ∈ programsOn memOp.tile memOps :=
        mem_programsOn.2 ⟨memOp, hmemOp, rfl, rfl⟩
      obtain ⟨i, hi', hget⟩ := List.getElem_of_mem hp
      have hi := hassigned.length_eq ▸ hi'
      have hsame := ((List.forall₂_iff_get.1 hassigned).2 i hi hi').same
      rw [List.get_eq_getElem, List.get_eq_getElem, hget] at hsame
      have hfollowed := (hall memOp.tile).2 _ (List.getElem_mem hi)
      rw [← followed_mapBds DMABDOp.unassigned, ← hsame, followed_mapBds] at hfollowed
      obtain ⟨p', hp'⟩ := exists_setNext hfollowed
      exact ⟨_, MemOp.setNext_eq_ok.2 ⟨p', hp', rfl⟩⟩
    choose! f hf using hset
    refine ⟨_, assignBufferDescriptorIDs_eq_ok.2 ⟨memOps, memOps.map f, hmem, ?_, rfl⟩⟩
    rw [List.forall₂_map_right_iff]
    exact List.forall₂_same.2 hf

theorem exists_assign_onTile {d : Device} {tile : ℤ × ℤ} :
    (∃ d', assignBufferDescriptorIDs (d.onTile tile) = .ok d') ↔
      (∃ r, assignPrograms (programsOn tile d.memOps) (d.gen tile) = .ok r) ∧
        ∀ p ∈ programsOn tile d.memOps, p.Followed := by
  have hgen : (d.onTile tile).gen = d.gen := rfl
  rw [exists_assign_iff, hgen]
  constructor
  · intro h
    have hown := h tile
    rwa [programsOn_onTile, if_pos rfl] at hown
  · intro h tile'
    rw [programsOn_onTile]
    by_cases heq : tile' = tile
    · rw [if_pos heq, heq]
      exact h
    · rw [if_neg heq]
      exact ⟨⟨_, rfl⟩, List.forall_mem_nil _⟩

/-- **The pass fails where it fails on one tile.** -/
theorem assignBufferDescriptorIDs_iff_onTile {d : Device} :
    (∃ d', assignBufferDescriptorIDs d = .ok d') ↔
      ∀ tile, ∃ d', assignBufferDescriptorIDs (d.onTile tile) = .ok d' := by
  rw [exists_assign_iff]
  exact forall_congr' fun tile => exists_assign_onTile.symm

/-- The ids below `x` in reach with it that are neither reserved nor pinned by the programs
`before`. -/
noncomputable def below (gen : BdIdGenerator) (reserved : List ℕ) (before : List Program) (x : ℕ) :
    Finset ℕ :=
  (Finset.range x).filter fun y => (∃ c, gen.accessible x c = true ∧ gen.accessible y c = true) ∧
    y ∉ reserved ∧ y ∉ ids (before.flatMap Program.bds)

def PinnedInTime (gen : BdIdGenerator) (reserved : List ℕ) (ps : List Program) : Prop :=
  ∀ before p after, ps = before ++ p :: after → ∀ x ∈ ids p.bds,
    unpinned gen.accessible before x ≤ (below gen reserved before x).card

/-- **Where some ids fit** the programs of a tile, the pass finds ids exactly where every descriptor
is in a chain and followed, and no id is pinned too late. -/
theorem assignBufferDescriptorIDs_complete_iff {d : Device} (hfamily : BdFamily d.tm)
    {tile : ℤ × ℤ} (hfits : ∃ ps', Fits (d.gen tile) (d.reserved tile)
      (programsOn tile d.memOps) ps') :
    (∃ d', assignBufferDescriptorIDs (d.onTile tile) = .ok d') ↔
      (∀ p ∈ programsOn tile d.memOps, p.Wired) ∧
        PinnedInTime (d.gen tile) (d.reserved tile) (programsOn tile d.memOps) := by
  obtain ⟨ps', hfits⟩ := hfits
  obtain ⟨htm, -, hnodup, hmem⟩ := gen_spec d tile
  have hacc : Classes (d.gen tile).accessible := fun x c c' hc hc' =>
    BdFamily.accessible_eq (htm ▸ hfamily) hc hc'
  have hstart : Handed (d.gen tile).accessible (d.gen tile).numBDs (d.gen tile)
      (d.reserved tile).toFinset ∅ fun _ => 0 := by
    refine ⟨rfl, rfl, fun y => ?_, Finset.disjoint_empty_right _, fun x => ?_, fun x => ?_⟩
    · rw [hmem, List.mem_toFinset, or_iff_left (Finset.notMem_empty y)]
    · rw [Finset.empty_inter]
      exact IsLowest.empty _
    · rw [Finset.empty_inter, Finset.card_empty]
  rw [exists_assign_onTile]
  have hrun : (∀ p ∈ programsOn tile d.memOps, p.Wired) →
      ((∃ r, assignPrograms (programsOn tile d.memOps) (d.gen tile) = .ok r) ↔
        PinnedInTime (d.gen tile) (d.reserved tile) (programsOn tile d.memOps)) := by
    intro hwired
    have hroomy := hfits.roomy hwired
    rw [assignPrograms_iff hacc hstart (fun p hp => hfits.servable hacc hp (hwired p hp)) hroomy,
      PinnedInTime]
    refine forall₃_congr fun before p after => forall₃_congr fun heq x hx => ?_
    have hlt : x < (d.gen tile).numBDs := by
      refine (hroomy.pinned x ?_).2.1
      rw [heq, List.flatMap_append, List.flatMap_cons, ids_append, ids_append]
      exact List.mem_append_right _ (List.mem_append_left _ hx)
    rw [Nat.zero_add]
    refine iff_of_eq (congrArg (fun F => _ ≤ Finset.card F) ?_)
    ext y
    simp only [below, mem_mates, Finset.mem_filter, Finset.mem_sdiff, Finset.mem_union,
      List.mem_toFinset, Finset.mem_range, not_or]
    constructor
    · rintro ⟨⟨⟨-, hc⟩, hfree⟩, hyx⟩
      exact ⟨hyx, hc, hfree⟩
    · rintro ⟨hyx, hc, hfree⟩
      exact ⟨⟨⟨hyx.trans hlt, hc⟩, hfree⟩, hyx⟩
  constructor
  · rintro ⟨⟨⟨ps₁, gen'⟩, hps⟩, hfollowed⟩
    have hwired : ∀ p ∈ programsOn tile d.memOps, p.Wired := by
      intro p hp
      have hall := (assignPrograms_spec hps).1
      obtain ⟨i, hi, rfl⟩ := List.getElem_of_mem hp
      exact wired_of_assigned ((List.forall₂_iff_get.mp hall).2 i hi (hall.length_eq ▸ hi))
        (hfollowed _ hp)
    exact ⟨hwired, (hrun hwired).mp ⟨_, hps⟩⟩
  · rintro ⟨hwired, hpinned⟩
    exact ⟨(hrun hwired).mpr hpinned, fun p hp => (hwired p hp).followed⟩

/-- A core tile with two programs, the second of which pins the id. -/
def pinsLater (bdId : ℕ) : Device where
  tm := AIE2TargetModel (fun _ _ => .CoreTile) []
  tiles := [⟨(0, 2), []⟩]
  memOps := [⟨(0, 2), .dmaForm [⟨0, false, [{}]⟩]⟩,
    ⟨(0, 2), .dmaForm [⟨1, false, [⟨some bdId, none⟩]⟩]⟩]

theorem pinsLater_fits (bdId other : ℕ) (h : bdId < 16) (h' : other < 16) (hne : other ≠ bdId) :
    Fits ((pinsLater bdId).gen (0, 2)) ((pinsLater bdId).reserved (0, 2))
      (programsOn (0, 2) (pinsLater bdId).memOps)
      [.dmaForm [⟨0, false, [⟨some other, none⟩]⟩],
        .dmaForm [⟨1, false, [⟨some bdId, none⟩]⟩]] := by
  have hreach : ∀ (c : ℤ) (y : ℕ), Reaches ((pinsLater bdId).gen (0, 2)) {c} ⟨some y, none⟩ := by
    rintro c y _ ⟨⟩ c' -
    rfl
  refine ⟨.cons ⟨rfl, .cons ⟨rfl, nofun⟩ .nil⟩ (.cons ⟨rfl, .cons ⟨rfl, fun _ h => h⟩ .nil⟩ .nil),
    ?_, ?_, ?_⟩
  · exact List.nodup_cons.2 ⟨by simpa [Program.bds] using hne, List.nodup_singleton _⟩
  · intro y hy
    have hy : y = other ∨ y = bdId := by simpa [ids, Program.bds] using hy
    rcases hy with rfl | rfl
    · exact ⟨h', List.not_mem_nil⟩
    · exact ⟨h, List.not_mem_nil⟩
  · intro p' hp'
    rcases List.mem_cons.1 hp' with rfl | hp'
    · exact .cons (hreach 0 other) .nil
    · rw [List.mem_singleton.1 hp']
      exact .cons (hreach 1 bdId) .nil

theorem pinsLater_complete_iff :
    (∃ d', assignBufferDescriptorIDs ((pinsLater 1).onTile (0, 2)) = .ok d') ↔
      (∀ p ∈ programsOn (0, 2) (pinsLater 1).memOps, p.Wired) ∧
        PinnedInTime ((pinsLater 1).gen (0, 2)) ((pinsLater 1).reserved (0, 2))
          (programsOn (0, 2) (pinsLater 1).memOps) :=
  assignBufferDescriptorIDs_complete_iff (bdFamily_AIE2 _ _)
    ⟨_, pinsLater_fits 1 0 (by decide) (by decide) (by decide)⟩

/-- The first program takes the id that the second one pins, though another one would do. -/
theorem pinsLater_fails : (∃ ps', Fits ((pinsLater 0).gen (0, 2)) ((pinsLater 0).reserved (0, 2))
      (programsOn (0, 2) (pinsLater 0).memOps) ps') ∧
    assignBufferDescriptorIDs ((pinsLater 0).onTile (0, 2)) = .error (.alreadyUsed [0]) :=
  ⟨⟨_, pinsLater_fits 0 1 (by decide) (by decide) (by decide)⟩, rfl⟩

end MlirAie.StaticBd
