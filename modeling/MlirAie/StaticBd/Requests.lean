import MlirAie.Lib.Lists
import MlirAie.StaticBd.Pass

/-!
# The descriptors of a program as requests

Both forms of a program ask the generator for ids one descriptor at a time, each for a channel. What
the pass does with a program is what it does with that list.

* `assignSeq`: a list of requests; `Program.requests`, `Program.fill`: the requests of a program,
  and the program with other descriptors;
* **`assignProgram_eq_ok`**: a program is assigned as its requests are;
* `map_snd_requests`, `bds_fill`: the requests are the descriptors, and take their places.
-/

namespace MlirAie.StaticBd

open MlirAie.Lib BdIdGenerator Relation

abbrev Requests := List (ℤ × DMABDOp)

def assignSeq : Requests → BdIdGenerator → Except Failure (List DMABDOp × BdIdGenerator)
  | [], gen => .ok ([], gen)
  | req :: reqs, gen => do
    let first ← gen.assignBd req.1 req.2
    let rest ← assignSeq reqs first.2
    .ok (first.1 :: rest.1, rest.2)

theorem assignSeq_cons_eq_ok {req : ℤ × DMABDOp} {reqs : Requests} {gen gen' : BdIdGenerator}
    {bds : List DMABDOp} : assignSeq (req :: reqs) gen = .ok (bds, gen') ↔
      ∃ bd gen₁ rest, gen.assignBd req.1 req.2 = .ok (bd, gen₁) ∧
        assignSeq reqs gen₁ = .ok (rest, gen') ∧ bds = bd :: rest := by
  constructor
  · intro h
    obtain ⟨⟨bd, gen₁⟩, hbd, h⟩ := bind_eq_ok.1 h
    obtain ⟨⟨rest, gen₂⟩, hrest, h⟩ := bind_eq_ok.1 h
    cases h
    exact ⟨bd, gen₁, rest, hbd, hrest, rfl⟩
  · rintro ⟨bd, gen₁, rest, hbd, hrest, rfl⟩
    exact bind_eq_ok.2 ⟨_, hbd, bind_eq_ok.2 ⟨_, hrest, rfl⟩⟩

theorem assignSeq_append_eq_ok {reqs reqs' : Requests} {gen gen' : BdIdGenerator}
    {bds : List DMABDOp} : assignSeq (reqs ++ reqs') gen = .ok (bds, gen') ↔
      ∃ front gen₁ back, assignSeq reqs gen = .ok (front, gen₁) ∧
        assignSeq reqs' gen₁ = .ok (back, gen') ∧ bds = front ++ back := by
  induction reqs generalizing gen bds with
  | nil =>
    constructor
    · exact fun h => ⟨[], gen, bds, rfl, h, rfl⟩
    · rintro ⟨front, gen₁, back, ⟨⟩, h, rfl⟩
      exact h
  | cons req reqs ih =>
    rw [List.cons_append, assignSeq_cons_eq_ok]
    constructor
    · rintro ⟨bd, gen₁, rest, hbd, hrest, rfl⟩
      obtain ⟨front, gen₂, back, hfront, hback, rfl⟩ := ih.1 hrest
      exact ⟨bd :: front, gen₂, back, assignSeq_cons_eq_ok.2 ⟨bd, gen₁, front, hbd, hfront, rfl⟩,
        hback, rfl⟩
    · rintro ⟨front, gen₂, back, hfront, hback, rfl⟩
      obtain ⟨bd, gen₁, rest, hbd, hrest, rfl⟩ := assignSeq_cons_eq_ok.1 hfront
      exact ⟨bd, gen₁, rest ++ back, hbd, ih.2 ⟨rest, gen₂, back, hrest, hback, rfl⟩, rfl⟩

theorem length_assignSeq {reqs : Requests} {gen gen' : BdIdGenerator} {bds : List DMABDOp}
    (h : assignSeq reqs gen = .ok (bds, gen')) : bds.length = reqs.length := by
  induction reqs generalizing gen bds with
  | nil =>
    cases h
    rfl
  | cons req reqs ih =>
    obtain ⟨bd, gen₁, rest, -, hrest, rfl⟩ := assignSeq_cons_eq_ok.1 h
    rw [List.length_cons, List.length_cons, ih hrest]

/-! ## The two forms -/

def DMAOp.requests (op : DMAOp) : Requests := op.bds.map fun bd => (op.channelIndex, bd)

/-- The requests of the blocks from position `i` on; `none` where a block has no channel. -/
def blockRequests (map : ℕ → Option ℤ) : ℕ → List Block → Option Requests
  | _, [] => some []
  | i, block :: blocks =>
    match block.bd with
    | none => blockRequests map (i + 1) blocks
    | some bd => (map i).bind fun channelIndex =>
        (blockRequests map (i + 1) blocks).map fun reqs => (channelIndex, bd) :: reqs

def Program.requests : Program → Option Requests
  | .dmaForm ops => some (ops.flatMap DMAOp.requests)
  | .blockForm blocks => blockRequests (blockChannelMap blocks) 0 blocks

def fillDMAs : List DMAOp → List DMABDOp → List DMAOp
  | [], _ => []
  | op :: ops, bds =>
    { op with bds := bds.take op.bds.length } :: fillDMAs ops (bds.drop op.bds.length)

def fillBlocks : List Block → List DMABDOp → List Block
  | [], _ => []
  | block :: blocks, bds =>
    match block.bd with
    | none => block :: fillBlocks blocks bds
    | some _ => { block with bd := bds.head? } :: fillBlocks blocks bds.tail

def Program.fill : Program → List DMABDOp → Program
  | .dmaForm ops, bds => .dmaForm (fillDMAs ops bds)
  | .blockForm blocks, bds => .blockForm (fillBlocks blocks bds)

theorem assignBds_eq (channelIndex : ℤ) (bds : List DMABDOp) (gen : BdIdGenerator) :
    assignBds channelIndex bds gen = assignSeq (bds.map fun bd => (channelIndex, bd)) gen := by
  induction bds generalizing gen with
  | nil => rfl
  | cons bd bds ih => simp only [assignBds, List.map_cons, assignSeq, ih]

theorem assignDMAs_eq_ok {ops ops' : List DMAOp} {gen gen' : BdIdGenerator} :
    assignDMAs ops gen = .ok (ops', gen') ↔
      ∃ bds, assignSeq (ops.flatMap DMAOp.requests) gen = .ok (bds, gen') ∧
        ops' = fillDMAs ops bds := by
  induction ops generalizing gen ops' with
  | nil =>
    constructor
    · rintro ⟨⟩
      exact ⟨[], rfl, rfl⟩
    · rintro ⟨bds, ⟨⟩, rfl⟩
      rfl
  | cons op ops ih =>
    rw [List.flatMap_cons]
    constructor
    · intro h
      obtain ⟨⟨front, gen₁⟩, hfront, h⟩ := bind_eq_ok.1 h
      obtain ⟨⟨rest, gen₂⟩, hrest, h⟩ := bind_eq_ok.1 h
      cases h
      rw [assignBds_eq] at hfront
      obtain ⟨back, hback, rfl⟩ := ih.1 hrest
      have hlen := length_assignSeq hfront
      rw [List.length_map] at hlen
      refine ⟨front ++ back, assignSeq_append_eq_ok.2 ⟨front, gen₁, back, hfront, hback, rfl⟩, ?_⟩
      rw [fillDMAs, ← hlen, List.take_left, List.drop_left]
    · rintro ⟨bds, h, rfl⟩
      obtain ⟨front, gen₁, back, hfront, hback, rfl⟩ := assignSeq_append_eq_ok.1 h
      have hlen := length_assignSeq hfront
      rw [DMAOp.requests, List.length_map] at hlen
      refine bind_eq_ok.2 ⟨(front, gen₁), (assignBds_eq ..).trans hfront, ?_⟩
      refine bind_eq_ok.2 ⟨(fillDMAs ops back, gen'), ih.2 ⟨back, hback, rfl⟩, ?_⟩
      rw [fillDMAs, ← hlen, List.take_left, List.drop_left]

theorem assignBlocks_eq_ok {map : ℕ → Option ℤ} {i : ℕ} {blocks blocks' : List Block}
    {gen gen' : BdIdGenerator} : assignBlocks map i blocks gen = .ok (blocks', gen') ↔
      ∃ reqs bds, blockRequests map i blocks = some reqs ∧ assignSeq reqs gen = .ok (bds, gen') ∧
        blocks' = fillBlocks blocks bds := by
  induction blocks generalizing i gen blocks' with
  | nil =>
    constructor
    · rintro ⟨⟩
      exact ⟨[], [], rfl, rfl, rfl⟩
    · rintro ⟨reqs, bds, ⟨⟩, ⟨⟩, rfl⟩
      rfl
  | cons block blocks ih =>
    rw [assignBlocks, blockRequests]
    cases hbd : block.bd with
    | none =>
      simp only [fillBlocks, hbd]
      constructor
      · intro h
        obtain ⟨⟨rest, gen₁⟩, hrest, h⟩ := bind_eq_ok.1 h
        cases h
        obtain ⟨reqs, bds, hreqs, hseq, rfl⟩ := ih.1 hrest
        exact ⟨reqs, bds, hreqs, hseq, rfl⟩
      · rintro ⟨reqs, bds, hreqs, hseq, rfl⟩
        exact bind_eq_ok.2 ⟨_, ih.2 ⟨reqs, bds, hreqs, hseq, rfl⟩, rfl⟩
    | some bd =>
      simp only [fillBlocks, hbd]
      cases hmap : map i with
      | none => simp
      | some channelIndex =>
        constructor
        · intro h
          obtain ⟨⟨bd', gen₁⟩, hbd', h⟩ := bind_eq_ok.1 h
          obtain ⟨⟨rest, gen₂⟩, hrest, h⟩ := bind_eq_ok.1 h
          cases h
          obtain ⟨reqs, bds, hreqs, hseq, rfl⟩ := ih.1 hrest
          exact ⟨(channelIndex, bd) :: reqs, bd' :: bds, by rw [hreqs]; rfl,
            assignSeq_cons_eq_ok.2 ⟨bd', gen₁, bds, hbd', hseq, rfl⟩, rfl⟩
        · rintro ⟨reqs, bds, hreqs, hseq, rfl⟩
          obtain ⟨rest, hrest, rfl⟩ := Option.map_eq_some_iff.1 hreqs
          obtain ⟨bd', gen₁, back, hbd', hback, rfl⟩ := assignSeq_cons_eq_ok.1 hseq
          exact bind_eq_ok.2 ⟨(bd', gen₁), hbd', bind_eq_ok.2
            ⟨(fillBlocks blocks back, gen'), ih.2 ⟨rest, back, hrest, hback, rfl⟩, rfl⟩⟩

/-- **A program is assigned as its requests are.** -/
theorem assignProgram_eq_ok {p p' : Program} {gen gen' : BdIdGenerator} :
    assignProgram p gen = .ok (p', gen') ↔ (collectPinned p.bds gen).1 = [] ∧
      ∃ reqs bds, p.requests = some reqs ∧
        assignSeq reqs (collectPinned p.bds gen).2 = .ok (bds, gen') ∧ p' = p.fill bds := by
  unfold assignProgram
  by_cases hpinned : (collectPinned p.bds gen).1 = []
  · simp only [hpinned, ne_eq, not_true_eq_false, if_false, true_and]
    cases p with
    | dmaForm ops =>
      constructor
      · intro h
        obtain ⟨⟨ops', gen₁⟩, hops, h⟩ := bind_eq_ok.1 h
        cases h
        obtain ⟨bds, hseq, rfl⟩ := assignDMAs_eq_ok.1 hops
        exact ⟨_, bds, rfl, hseq, rfl⟩
      · rintro ⟨reqs, bds, ⟨⟩, hseq, rfl⟩
        exact bind_eq_ok.2 ⟨_, assignDMAs_eq_ok.2 ⟨bds, hseq, rfl⟩, rfl⟩
    | blockForm blocks =>
      constructor
      · intro h
        obtain ⟨⟨blocks', gen₁⟩, hblocks, h⟩ := bind_eq_ok.1 h
        cases h
        obtain ⟨reqs, bds, hreqs, hseq, rfl⟩ := assignBlocks_eq_ok.1 hblocks
        exact ⟨reqs, bds, hreqs, hseq, rfl⟩
      · rintro ⟨reqs, bds, hreqs, hseq, rfl⟩
        exact bind_eq_ok.2 ⟨_, assignBlocks_eq_ok.2 ⟨reqs, bds, hreqs, hseq, rfl⟩, rfl⟩
  · simp [hpinned]

theorem map_snd_blockRequests {map : ℕ → Option ℤ} {i : ℕ} {blocks : List Block}
    {reqs : Requests} (h : blockRequests map i blocks = some reqs) :
    reqs.map Prod.snd = blocks.filterMap Block.bd := by
  induction blocks generalizing i reqs with
  | nil =>
    cases h
    rfl
  | cons block blocks ih =>
    rw [blockRequests] at h
    cases hbd : block.bd with
    | none =>
      rw [hbd] at h
      rw [List.filterMap_cons_none hbd]
      exact ih h
    | some bd =>
      rw [hbd] at h
      obtain ⟨channelIndex, -, h⟩ := Option.bind_eq_some_iff.1 h
      obtain ⟨rest, hrest, rfl⟩ := Option.map_eq_some_iff.1 h
      rw [List.filterMap_cons_some hbd, List.map_cons, ih hrest]

theorem map_snd_requests {p : Program} {reqs : Requests} (h : p.requests = some reqs) :
    reqs.map Prod.snd = p.bds := by
  cases p with
  | dmaForm ops =>
    cases h
    rw [Program.bds, List.map_flatMap]
    congr 1
    funext op
    rw [DMAOp.requests, List.map_map]
    exact List.map_id _
  | blockForm blocks => exact map_snd_blockRequests h

theorem bds_fillDMAs {ops : List DMAOp} {bds : List DMABDOp}
    (h : bds.length = (ops.flatMap DMAOp.bds).length) :
    (fillDMAs ops bds).flatMap DMAOp.bds = bds := by
  induction ops generalizing bds with
  | nil => exact (List.eq_nil_of_length_eq_zero h).symm
  | cons op ops ih =>
    rw [List.flatMap_cons, List.length_append] at h
    rw [fillDMAs, List.flatMap_cons, ih (by rw [List.length_drop]; omega)]
    exact List.take_append_drop _ _

theorem bds_fillBlocks {blocks : List Block} {bds : List DMABDOp}
    (h : bds.length = (blocks.filterMap Block.bd).length) :
    (fillBlocks blocks bds).filterMap Block.bd = bds := by
  induction blocks generalizing bds with
  | nil => exact (List.eq_nil_of_length_eq_zero h).symm
  | cons block blocks ih =>
    rw [fillBlocks]
    cases hbd : block.bd with
    | none =>
      rw [List.filterMap_cons_none hbd] at h
      dsimp only
      rw [List.filterMap_cons_none hbd]
      exact ih h
    | some bd =>
      rw [List.filterMap_cons_some hbd, List.length_cons] at h
      cases bds with
      | nil => cases h
      | cons bd' bds =>
        dsimp only [List.head?_cons, List.tail_cons]
        have hsome : Block.bd { block with bd := some bd' } = some bd' := rfl
        rw [List.filterMap_cons_some hsome, ih (by simpa using h)]

theorem bds_fill {p : Program} {bds : List DMABDOp} (h : bds.length = p.bds.length) :
    (p.fill bds).bds = bds := by
  cases p with
  | dmaForm ops => exact bds_fillDMAs h
  | blockForm blocks => exact bds_fillBlocks h

end MlirAie.StaticBd
