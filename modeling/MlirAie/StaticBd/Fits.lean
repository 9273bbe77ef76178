import MlirAie.StaticBd.Chains

/-!
# Assigned programs

What the ids of a tile's programs have to be, and what one program of the pass does with them.

* `Program.mapBds`: a program with other descriptors, the same chains;
* `Keeps`, `Reaches`, **`Fits`**: the programs of a tile with ids;
* **`assignProgram_served`**: after a program its generator has taken the ids of the program, each
  once.
-/

namespace MlirAie.StaticBd

open BdIdGenerator MlirAie.Lib

/-! ## Other descriptors -/

def DMAOp.mapBds (f : DMABDOp → DMABDOp) (op : DMAOp) : DMAOp := { op with bds := op.bds.map f }

def Block.mapBd (f : DMABDOp → DMABDOp) (block : Block) : Block :=
  { block with bd := block.bd.map f }

def Program.mapBds (f : DMABDOp → DMABDOp) : Program → Program
  | .dmaForm ops => .dmaForm (ops.map (DMAOp.mapBds f))
  | .blockForm blocks => .blockForm (blocks.map (Block.mapBd f))

section MapBds

variable (f : DMABDOp → DMABDOp)

theorem mapBds_mapBds (g : DMABDOp → DMABDOp) (p : Program) :
    (p.mapBds g).mapBds f = p.mapBds (f ∘ g) := by
  cases p with
  | dmaForm ops =>
    simp only [Program.mapBds, List.map_map, Function.comp_def, DMAOp.mapBds]
    rfl
  | blockForm blocks =>
    simp only [Program.mapBds, List.map_map, Function.comp_def, Block.mapBd, Option.map_map]
    rfl

theorem nextBlock_mapBd (blocks : List Block) :
    nextBlock (blocks.map (Block.mapBd f)) = nextBlock blocks := by
  funext i
  rw [nextBlock, nextBlock, List.getElem?_map, Option.bind_map]
  rfl

theorem inChain_mapBd (blocks : List Block) :
    InChain (blocks.map (Block.mapBd f)) = InChain blocks := by
  have hstart : StartAt (blocks.map (Block.mapBd f)) = StartAt blocks := by
    funext s c dest
    rw [StartAt, StartAt, List.getElem?_map, Option.map_map]
    rfl
  funext i c
  rw [InChain, InChain, hstart]
  unfold Follows
  rw [nextBlock_mapBd]

theorem channels_mapBds (p : Program) : (p.mapBds f).channels = p.channels := by
  cases p with
  | dmaForm ops =>
    simp only [Program.mapBds, Program.channels, List.flatMap_map, DMAOp.mapBds, List.map_map,
      Function.comp_def]
  | blockForm blocks =>
    simp only [Program.mapBds, Program.channels, List.zipIdx_map, List.filterMap_map,
      inChain_mapBd]
    congr 1
    funext block
    simp only [Function.comp_def, Prod.map, id_eq, Block.mapBd, Option.map_map]

theorem followed_mapBds (p : Program) : (p.mapBds f).Followed ↔ p.Followed := by
  cases p with
  | dmaForm ops => exact Iff.rfl
  | blockForm blocks =>
    simp only [Program.mapBds, Program.Followed, List.forall_mem_map, Block.Followed,
      List.getElem?_map, Option.map_eq_some_iff]
    refine forall_congr' fun block => forall_congr' fun _ => ?_
    simp only [Block.mapBd, Option.isSome_map]
    refine imp_congr_right fun _ => or_congr_right (exists_congr fun next => ?_)
    constructor
    · rintro ⟨_, hterm, ⟨follower, hfollower, rfl⟩, h⟩
      refine ⟨follower, hterm, hfollower, ?_⟩
      simpa [Block.onlyEnd] using h
    · rintro ⟨follower, hterm, hfollower, h⟩
      refine ⟨_, hterm, ⟨follower, hfollower, rfl⟩, ?_⟩
      simpa [Block.onlyEnd] using h

end MapBds

theorem length_channels (p : Program) : p.channels.length = p.bds.length := by
  cases p with
  | dmaForm ops =>
    simp only [Program.channels, Program.bds, List.length_flatMap, List.length_map]
  | blockForm blocks =>
    have h : ∀ i, ((blocks.zipIdx i).filterMap fun block =>
        block.1.bd.map fun _ => {c | InChain blocks block.2 c}).length =
        (blocks.filterMap Block.bd).length := by
      generalize InChain blocks = chain
      induction blocks with
      | nil => exact fun _ => rfl
      | cons block blocks ih =>
        intro i
        rw [List.zipIdx_cons]
        cases hbd : block.bd with
        | none =>
          rw [List.filterMap_cons_none (by rw [hbd]; rfl), List.filterMap_cons_none hbd, ih]
        | some bd =>
          rw [List.filterMap_cons_some (b := {c | chain i c}) (by rw [hbd]; rfl),
            List.filterMap_cons_some hbd, List.length_cons, List.length_cons, ih]
    exact h 0

theorem mapBds_fillDMAs {f : DMABDOp → DMABDOp} {ops : List DMAOp} {bds : List DMABDOp}
    (h : bds.map f = (ops.flatMap DMAOp.bds).map f) :
    (fillDMAs ops bds).map (DMAOp.mapBds f) = ops.map (DMAOp.mapBds f) := by
  induction ops generalizing bds with
  | nil => rfl
  | cons op ops ih =>
    rw [List.flatMap_cons, List.map_append] at h
    have hlen : (op.bds.map f).length = op.bds.length := List.length_map _
    rw [fillDMAs, List.map_cons, List.map_cons, ih]
    · congr 1
      rw [DMAOp.mapBds, DMAOp.mapBds, DMAOp.mk.injEq]
      refine ⟨rfl, rfl, ?_⟩
      dsimp only
      rw [List.map_take, h, ← hlen, List.take_left]
    · rw [List.map_drop, h, ← hlen, List.drop_left]

theorem mapBd_fillBlocks {f : DMABDOp → DMABDOp} {blocks : List Block} {bds : List DMABDOp}
    (h : bds.map f = (blocks.filterMap Block.bd).map f) :
    (fillBlocks blocks bds).map (Block.mapBd f) = blocks.map (Block.mapBd f) := by
  induction blocks generalizing bds with
  | nil => rfl
  | cons block blocks ih =>
    cases hbd : block.bd with
    | none =>
      rw [List.filterMap_cons_none hbd] at h
      simp only [fillBlocks, hbd, List.map_cons, ih h]
    | some bd =>
      rw [List.filterMap_cons_some hbd, List.map_cons] at h
      cases bds with
      | nil => cases h
      | cons bd' bds =>
        obtain ⟨hf, h⟩ := List.cons.inj h
        simp only [fillBlocks, hbd, List.map_cons, List.tail_cons, List.head?_cons, ih h,
          Block.mapBd, Option.map_some, hf]

theorem mapBds_fill {f : DMABDOp → DMABDOp} {p : Program} {bds : List DMABDOp}
    (h : bds.map f = p.bds.map f) : (p.fill bds).mapBds f = p.mapBds f := by
  cases p with
  | dmaForm ops => exact congrArg Program.dmaForm (mapBds_fillDMAs h)
  | blockForm blocks => exact congrArg Program.blockForm (mapBd_fillBlocks h)

/-! ## Ids that fit -/

def DMABDOp.unassigned (bd : DMABDOp) : DMABDOp := { bd with bdId := none }

def DMABDOp.erased (_ : DMABDOp) : DMABDOp := {}

def ids (bds : List DMABDOp) : List ℕ := bds.filterMap DMABDOp.bdId

/-- The descriptor has an id, and that is the pinned one if there is one. -/
def Keeps (bd bd' : DMABDOp) : Prop :=
  bd'.bdId.isSome ∧ ∀ bdId, bd.bdId = some bdId → bd'.bdId = some bdId

def Reaches (gen : BdIdGenerator) (cs : Set ℤ) (bd : DMABDOp) : Prop :=
  ∀ bdId, bd.bdId = some bdId → ∀ c ∈ cs, gen.accessible bdId c = true

/-- **Ids for the programs of a tile:** the programs `ps'` are the programs `ps` with an id for
every descriptor, the pinned ones kept, all distinct, free, and within reach. -/
structure Fits (gen : BdIdGenerator) (reserved : List ℕ) (ps ps' : List Program) : Prop where
  same : List.Forall₂ (fun p p' => p'.mapBds DMABDOp.erased = p.mapBds DMABDOp.erased ∧
    List.Forall₂ Keeps p.bds p'.bds) ps ps'
  distinct : (ids (ps'.flatMap Program.bds)).Nodup
  free : ∀ bdId ∈ ids (ps'.flatMap Program.bds), bdId < gen.numBDs ∧ bdId ∉ reserved
  reaches : ∀ p' ∈ ps', List.Forall₂ (Reaches gen) p'.channels p'.bds

theorem ids_append (bds bds' : List DMABDOp) : ids (bds ++ bds') = ids bds ++ ids bds' :=
  List.filterMap_append

theorem mem_ids {bds : List DMABDOp} {bdId : ℕ} :
    bdId ∈ ids bds ↔ ∃ bd ∈ bds, bd.bdId = some bdId := List.mem_filterMap

/-! ## The generator -/

section Generator

variable {gen gen' : BdIdGenerator}

theorem bdIdAlreadyAssigned_iff {bdId : ℕ} :
    gen.bdIdAlreadyAssigned bdId = true ↔ bdId ∈ gen.alreadyAssigned := List.contains_iff_mem

theorem nextBdId_eq_some {c : ℤ} {r : ℕ × BdIdGenerator} :
    gen.nextBdId c = some r ↔ (r.1 < gen.numBDs ∧ r.1 ∉ gen.alreadyAssigned ∧
      gen.accessible r.1 c = true ∧ ∀ y < r.1, gen.accessible y c = true →
        y ∈ gen.alreadyAssigned) ∧ r.2 = gen.assignBdId r.1 := by
  obtain ⟨bdId, gen'⟩ := r
  rw [nextBdId, Option.map_eq_some_iff]
  simp only [List.find?_range_eq_some, Bool.and_eq_true, Bool.not_eq_true', Prod.mk.injEq,
    ← Bool.not_eq_true, bdIdAlreadyAssigned_iff, List.mem_range]
  constructor
  · rintro ⟨y, ⟨⟨hfree, hacc⟩, hlt, hleast⟩, rfl, rfl⟩
    refine ⟨⟨hlt, hfree, hacc, fun z hz hzacc => ?_⟩, rfl⟩
    by_contra hzfree
    exact hleast z hz ⟨hzfree, hzacc⟩
  · rintro ⟨⟨hlt, hfree, hacc, hleast⟩, rfl⟩
    exact ⟨bdId, ⟨⟨hfree, hacc⟩, hlt, fun z hz h => h.1 (hleast z hz h.2)⟩, rfl, rfl⟩

theorem nextBdId_eq_none {c : ℤ} :
    gen.nextBdId c = none ↔ ∀ y < gen.numBDs, gen.accessible y c = true →
      y ∈ gen.alreadyAssigned := by
  rw [nextBdId, Option.map_eq_none_iff, List.find?_eq_none]
  simp only [List.mem_range, Bool.and_eq_true, Bool.not_eq_true', not_and, ← Bool.not_eq_true,
    bdIdAlreadyAssigned_iff]
  refine forall_congr' fun y => imp_congr_right fun _ => ?_
  tauto

theorem assignBd_eq_ok {c : ℤ} {bd bd' : DMABDOp} :
    gen.assignBd c bd = .ok (bd', gen') ↔
      (∃ bdId, bd.bdId = some bdId ∧ gen.accessible bdId c = true ∧ bd' = bd ∧ gen' = gen) ∨
      ∃ bdId, bd.bdId = none ∧ gen.nextBdId c = some (bdId, gen') ∧
        bd' = { bd with bdId := some bdId } := by
  unfold assignBd
  cases hid : bd.bdId with
  | some bdId =>
    dsimp only
    split
    · rename_i hacc
      constructor
      · rintro ⟨⟩
        exact Or.inl ⟨bdId, rfl, hacc, rfl, rfl⟩
      · rintro (⟨_, ⟨⟩, -, rfl, rfl⟩ | ⟨_, h, -⟩)
        · rfl
        · cases h
    · rename_i hacc
      refine iff_of_false nofun ?_
      rintro (⟨_, ⟨⟩, h, -⟩ | ⟨_, h, -⟩)
      · exact hacc h
      · cases h
  | none =>
    cases hnext : gen.nextBdId c with
    | none => simp
    | some r =>
      obtain ⟨bdId, gen₁⟩ := r
      simp only [Except.ok.injEq, Prod.mk.injEq, Option.some_inj, reduceCtorEq, false_and,
        exists_false, false_or, true_and]
      constructor
      · rintro ⟨rfl, rfl⟩
        exact ⟨bdId, ⟨rfl, rfl⟩, rfl⟩
      · rintro ⟨_, ⟨rfl, rfl⟩, rfl⟩
        exact ⟨rfl, rfl⟩

theorem collectPinned_eq (bds : List DMABDOp) (gen : BdIdGenerator) :
    ((collectPinned bds gen).1 = [] ↔ (ids bds).Nodup ∧
      ∀ bdId ∈ ids bds, bdId ∉ gen.alreadyAssigned) ∧
    ((collectPinned bds gen).1 = [] → (collectPinned bds gen).2 =
      { gen with alreadyAssigned := (ids bds).reverse ++ gen.alreadyAssigned }) := by
  induction bds generalizing gen with
  | nil => exact ⟨⟨fun _ => ⟨.nil, List.forall_mem_nil _⟩, fun _ => rfl⟩, fun _ => rfl⟩
  | cons bd bds ih =>
    cases hid : bd.bdId with
    | none =>
      have hids : ids (bd :: bds) = ids bds := List.filterMap_cons_none hid
      simp only [collectPinned, hid, hids]
      exact ih gen
    | some bdId =>
      have hids : ids (bd :: bds) = bdId :: ids bds := List.filterMap_cons_some hid
      simp only [collectPinned, hid, hids]
      by_cases htaken : gen.bdIdAlreadyAssigned bdId = true
      · rw [if_pos htaken]
        have hmem := bdIdAlreadyAssigned_iff.1 htaken
        refine ⟨iff_of_false nofun fun h => h.2 bdId List.mem_cons_self hmem, nofun⟩
      · rw [if_neg htaken]
        have hmem : bdId ∉ gen.alreadyAssigned := fun h => htaken (bdIdAlreadyAssigned_iff.2 h)
        obtain ⟨hiff, heq⟩ := ih (gen.assignBdId bdId)
        constructor
        · rw [hiff, List.nodup_cons, List.forall_mem_cons]
          constructor
          · rintro ⟨hnodup, hfree⟩
            refine ⟨⟨fun h => hfree bdId h List.mem_cons_self, hnodup⟩, hmem, fun y hy h => ?_⟩
            exact hfree y hy (List.mem_cons_of_mem _ h)
          · rintro ⟨⟨hnot, hnodup⟩, -, hfree⟩
            refine ⟨hnodup, fun y hy h => ?_⟩
            rcases List.mem_cons.1 h with rfl | h
            · exact hnot hy
            · exact hfree y hy h
        · intro h
          rw [heq h, assignBdId, List.reverse_cons, List.append_assoc]
          rfl

end Generator

end MlirAie.StaticBd
