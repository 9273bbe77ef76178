import MlirAie.StaticBd.Fits

/-!
# When the ids are sound

A program takes the ids of its descriptors, each once, and the programs of a tile share what is
left. The second pass copies the ids to the descriptors they follow; it writes nothing to a
descriptor whose block ends the chain. So a success is sound but for two things that the pass does
not look at: a descriptor in the chains of channels that reach different ids, and what an input
says already about the descriptor after the last.

* `AssignedAs`, **`assignPrograms_spec`**: the programs of one tile, one after the other;
* `assignMemOps_onTile`: the pass does so on every tile;
* `Device.Sound`, `Device.Clean`, **`assignBufferDescriptorIDs_sound_iff`**.
-/

namespace MlirAie.StaticBd

open BdIdGenerator MlirAie.Lib

/-! ## The requests of one program -/

/-- What a list of requests gives, and what it takes. -/
structure Served (gen : BdIdGenerator) (reqs : Requests) (bds : List DMABDOp)
    (gen' : BdIdGenerator) : Prop where
  tm : gen'.tm = gen.tm
  tile : gen'.tile = gen.tile
  served : List.Forall₂ (fun req bd => bd.unassigned = req.2.unassigned ∧ Keeps req.2 bd ∧
    ∀ bdId, bd.bdId = some bdId → gen.accessible bdId req.1 = true ∧
      (req.2.bdId = none → bdId < gen.numBDs)) reqs bds
  perm : (gen'.alreadyAssigned ++ ids (reqs.map Prod.snd)).Perm (ids bds ++ gen.alreadyAssigned)
  nodup : gen.alreadyAssigned.Nodup → gen'.alreadyAssigned.Nodup

theorem accessible_congr {gen gen' : BdIdGenerator} (htm : gen'.tm = gen.tm)
    (htile : gen'.tile = gen.tile) : gen'.accessible = gen.accessible := by
  funext bdId c
  rw [accessible, accessible, htm, htile]

theorem numBDs_congr {gen gen' : BdIdGenerator} (htm : gen'.tm = gen.tm)
    (htile : gen'.tile = gen.tile) : gen'.numBDs = gen.numBDs := by
  rw [numBDs, numBDs, htm, htile]

theorem assignSeq_served {reqs : Requests} {gen gen' : BdIdGenerator} {bds : List DMABDOp}
    (h : assignSeq reqs gen = .ok (bds, gen')) : Served gen reqs bds gen' := by
  induction reqs generalizing gen bds with
  | nil =>
    cases h
    exact ⟨rfl, rfl, .nil, by simp [ids], id⟩
  | cons req reqs ih =>
    obtain ⟨bd, gen₁, rest, hbd, hrest, rfl⟩ := assignSeq_cons_eq_ok.1 h
    have hs := ih hrest
    rcases assignBd_eq_ok.1 hbd with ⟨bdId, hid, hacc, rfl, rfl⟩ | ⟨bdId, hid, hnext, rfl⟩
    · refine ⟨hs.tm, hs.tile, .cons ⟨rfl, ⟨by rw [hid]; rfl, fun _ h => h⟩, ?_⟩ hs.served, ?_,
        hs.nodup⟩
      · intro y hy
        rw [hid] at hy
        cases hy
        refine ⟨hacc, fun h => ?_⟩
        rw [hid] at h
        cases h
      · have hids : ∀ l, ids (req.2 :: l) = bdId :: ids l := fun l =>
          List.filterMap_cons_some hid
        rw [List.map_cons, hids, hids, List.cons_append]
        exact List.perm_middle.trans (hs.perm.cons _)
    · obtain ⟨⟨hlt, hfree, hacc, -⟩, heq⟩ := nextBdId_eq_some.1 hnext
      dsimp only at hlt hfree hacc heq
      subst heq
      refine ⟨hs.tm, hs.tile, .cons ⟨rfl, ⟨rfl, fun y hy => ?_⟩, ?_⟩ hs.served, ?_,
        fun hnodup => ?_⟩
      · rw [hid] at hy
        cases hy
      · rintro y ⟨⟩
        exact ⟨hacc, fun _ => hlt⟩
      · have hids : ids (req.2 :: reqs.map Prod.snd) = ids (reqs.map Prod.snd) :=
          List.filterMap_cons_none hid
        have hids' : ids ({ req.2 with bdId := some bdId } :: rest) = bdId :: ids rest := rfl
        rw [List.map_cons, hids, hids', List.cons_append]
        exact hs.perm.trans List.perm_middle
      · exact hs.nodup (List.nodup_cons.2 ⟨hfree, hnodup⟩)

/-! ## The programs of one tile -/

structure AssignedAs (gen : BdIdGenerator) (p p' : Program) : Prop where
  same : p'.mapBds DMABDOp.unassigned = p.mapBds DMABDOp.unassigned
  keeps : List.Forall₂ Keeps p.bds p'.bds
  bounded : ∀ bdId ∈ ids p'.bds, bdId ∈ ids p.bds ∨ bdId < gen.numBDs
  reaches : ∃ reqs, p.requests = some reqs ∧ List.Forall₂ (fun req bd =>
    ∀ bdId, bd.bdId = some bdId → gen.accessible bdId req.1 = true) reqs p'.bds

/-- **One program** takes its ids, each once. -/
theorem assignProgram_spec {gen gen' : BdIdGenerator} {p p' : Program}
    (h : assignProgram p gen = .ok (p', gen')) : AssignedAs gen p p' ∧ gen'.tm = gen.tm ∧
      gen'.tile = gen.tile ∧ gen'.alreadyAssigned.Perm (ids p'.bds ++ gen.alreadyAssigned) ∧
      (gen.alreadyAssigned.Nodup → gen'.alreadyAssigned.Nodup) := by
  obtain ⟨hpinned, reqs, bds, hreqs, hseq, rfl⟩ := assignProgram_eq_ok.1 h
  obtain ⟨hcollect, heq⟩ := collectPinned_eq p.bds gen
  obtain ⟨hdistinct, hfree⟩ := hcollect.1 hpinned
  rw [heq hpinned] at hseq
  have hs := assignSeq_served hseq
  have hbds := map_snd_requests hreqs
  have hlen : bds.length = p.bds.length := by
    rw [← hs.served.length_eq, ← hbds, List.length_map]
  have hids := bds_fill hlen
  have hun : bds.map DMABDOp.unassigned = p.bds.map DMABDOp.unassigned := by
    rw [← hbds, List.map_map]
    exact (map_eq_of_forall₂ (hs.served.imp fun _ _ h => h.1.symm)).symm
  refine ⟨⟨mapBds_fill hun, ?_, fun bdId hid => ?_, reqs, hreqs, ?_⟩, hs.tm, hs.tile, ?_, ?_⟩
  · rw [hids, ← hbds, List.forall₂_map_left_iff]
    exact hs.served.imp fun _ _ h => h.2.1
  · rw [hids] at hid
    obtain ⟨bd, hbd, hid⟩ := mem_ids.1 hid
    obtain ⟨i, hi, rfl⟩ := List.getElem_of_mem hbd
    have hi' : i < reqs.length := hs.served.length_eq ▸ hi
    have hreq := (List.forall₂_iff_get.1 hs.served).2 i hi' hi
    rw [List.get_eq_getElem, List.get_eq_getElem] at hreq
    cases hpin : reqs[i].2.bdId with
    | none => exact Or.inr ((hreq.2.2 bdId hid).2 hpin)
    | some y =>
      have hkeep := hreq.2.1.2 y hpin
      rw [hid] at hkeep
      cases hkeep
      refine Or.inl (mem_ids.2 ⟨reqs[i].2, ?_, hpin⟩)
      rw [← hbds]
      exact List.mem_map_of_mem (List.getElem_mem hi')
  · rw [hids]
    exact hs.served.imp fun _ _ h bdId hid => (h.2.2 bdId hid).1
  · rw [hids]
    have hperm := hs.perm
    rw [hbds] at hperm
    refine (List.perm_append_right_iff (ids p.bds)).1 (hperm.trans ?_)
    rw [List.append_assoc]
    refine List.Perm.append_left _ ?_
    exact (List.perm_append_comm).trans (List.Perm.append_left _ (List.reverse_perm _))
  · intro hnodup
    refine hs.nodup (List.nodup_append.2 ⟨List.nodup_reverse.2 hdistinct, hnodup, ?_⟩)
    rintro x hx _ hy rfl
    exact hfree x (List.mem_reverse.1 hx) hy

def assignPrograms : List Program → BdIdGenerator → Except Failure (List Program × BdIdGenerator)
  | [], gen => .ok ([], gen)
  | p :: ps, gen => do
    let first ← assignProgram p gen
    let rest ← assignPrograms ps first.2
    .ok (first.1 :: rest.1, rest.2)

theorem assignPrograms_cons_eq_ok {p : Program} {ps ps' : List Program}
    {gen gen' : BdIdGenerator} : assignPrograms (p :: ps) gen = .ok (ps', gen') ↔
      ∃ p' gen₁ rest, assignProgram p gen = .ok (p', gen₁) ∧
        assignPrograms ps gen₁ = .ok (rest, gen') ∧ ps' = p' :: rest := by
  constructor
  · intro h
    obtain ⟨⟨p', gen₁⟩, hp, h⟩ := bind_eq_ok.1 h
    obtain ⟨⟨rest, gen₂⟩, hrest, h⟩ := bind_eq_ok.1 h
    cases h
    exact ⟨p', gen₁, rest, hp, hrest, rfl⟩
  · rintro ⟨p', gen₁, rest, hp, hrest, rfl⟩
    exact bind_eq_ok.2 ⟨_, hp, bind_eq_ok.2 ⟨_, hrest, rfl⟩⟩

/-- **The programs of a tile** take their ids, each once. -/
theorem assignPrograms_spec {gen gen' : BdIdGenerator} {ps ps' : List Program}
    (h : assignPrograms ps gen = .ok (ps', gen')) : List.Forall₂ (AssignedAs gen) ps ps' ∧
      gen'.alreadyAssigned.Perm (ids (ps'.flatMap Program.bds) ++ gen.alreadyAssigned) ∧
      (gen.alreadyAssigned.Nodup → gen'.alreadyAssigned.Nodup) := by
  induction ps generalizing gen ps' with
  | nil =>
    cases h
    exact ⟨.nil, List.Perm.refl _, id⟩
  | cons p ps ih =>
    obtain ⟨p', gen₁, rest, hp, hrest, rfl⟩ := assignPrograms_cons_eq_ok.1 h
    obtain ⟨has, htm, htile, hperm, hnodup⟩ := assignProgram_spec hp
    obtain ⟨hall, hperm', hnodup'⟩ := ih hrest
    refine ⟨.cons has (hall.imp fun _ _ h => ?_), ?_, fun h => hnodup' (hnodup h)⟩
    · obtain ⟨hsame, hkeeps, hbounded, hreaches⟩ := h
      rw [accessible_congr htm htile] at hreaches
      rw [numBDs_congr htm htile] at hbounded
      exact ⟨hsame, hkeeps, hbounded, hreaches⟩
    · rw [List.flatMap_cons, ids_append, List.append_assoc]
      refine hperm'.trans ((List.Perm.append_left _ hperm).trans ?_)
      rw [← List.append_assoc, ← List.append_assoc]
      exact List.perm_append_comm.append_right _

/-! ## The tiles of a device -/

def Device.gen (d : Device) (tile : ℤ × ℤ) : BdIdGenerator :=
  .ofReserved d.tm tile (d.reserved tile)

def programsOn (tile : ℤ × ℤ) (memOps : List MemOp) : List Program :=
  (memOps.filter fun memOp => memOp.tile = tile).map MemOp.program

theorem programsOn_cons_self (memOp : MemOp) (memOps : List MemOp) :
    programsOn memOp.tile (memOp :: memOps) = memOp.program :: programsOn memOp.tile memOps := by
  rw [programsOn, List.filter_cons_of_pos (by simp), List.map_cons]
  rfl

theorem programsOn_cons_of_ne {tile : ℤ × ℤ} {memOp : MemOp} (h : memOp.tile ≠ tile)
    (memOps : List MemOp) : programsOn tile (memOp :: memOps) = programsOn tile memOps := by
  rw [programsOn, List.filter_cons_of_neg (by simpa using h)]
  rfl

theorem mem_programsOn {tile : ℤ × ℤ} {memOps : List MemOp} {p : Program} :
    p ∈ programsOn tile memOps ↔ ∃ memOp ∈ memOps, memOp.tile = tile ∧ memOp.program = p := by
  simp [programsOn, and_assoc]

theorem assignMemOps_cons_eq_ok {d : Device} {memOp : MemOp} {memOps memOps' : List MemOp}
    {gens : ℤ × ℤ → Option BdIdGenerator} :
    assignMemOps d (memOp :: memOps) gens = .ok memOps' ↔
      ∃ p' gen' rest, assignProgram memOp.program ((gens memOp.tile).getD (d.gen memOp.tile)) =
        .ok (p', gen') ∧
      assignMemOps d memOps (Function.update gens memOp.tile (some gen')) = .ok rest ∧
      memOps' = { memOp with program := p' } :: rest := by
  constructor
  · intro h
    obtain ⟨⟨p', gen'⟩, hp, h⟩ := bind_eq_ok.1 h
    obtain ⟨rest, hrest, h⟩ := bind_eq_ok.1 h
    cases h
    exact ⟨p', gen', rest, hp, hrest, rfl⟩
  · rintro ⟨p', gen', rest, hp, hrest, rfl⟩
    exact bind_eq_ok.2 ⟨_, hp, bind_eq_ok.2 ⟨_, hrest, rfl⟩⟩

theorem assignMemOps_onTile {d : Device} {memOps memOps' : List MemOp}
    {gens : ℤ × ℤ → Option BdIdGenerator} (h : assignMemOps d memOps gens = .ok memOps') :
    memOps'.map MemOp.tile = memOps.map MemOp.tile ∧ ∀ tile, ∃ gen',
      assignPrograms (programsOn tile memOps) ((gens tile).getD (d.gen tile)) =
        .ok (programsOn tile memOps', gen') := by
  induction memOps generalizing gens memOps' with
  | nil =>
    cases h
    exact ⟨rfl, fun tile => ⟨_, rfl⟩⟩
  | cons memOp memOps ih =>
    obtain ⟨p', gen', rest, hp, hrest, rfl⟩ := assignMemOps_cons_eq_ok.1 h
    obtain ⟨htiles, hall⟩ := ih hrest
    refine ⟨by rw [List.map_cons, List.map_cons, htiles], fun tile => ?_⟩
    obtain ⟨gen₂, htile⟩ := hall tile
    refine ⟨gen₂, ?_⟩
    by_cases heq : memOp.tile = tile
    · subst heq
      rw [Function.update_self] at htile
      rw [programsOn_cons_self]
      exact assignPrograms_cons_eq_ok.2 ⟨p', gen', _, hp, htile,
        programsOn_cons_self { memOp with program := p' } rest⟩
    · rw [Function.update_of_ne (Ne.symm heq)] at htile
      rw [programsOn_cons_of_ne heq, htile]
      rw [@programsOn_cons_of_ne tile { memOp with program := p' } heq]

theorem exists_assignMemOps {d : Device} {memOps : List MemOp}
    {gens : ℤ × ℤ → Option BdIdGenerator}
    (h : ∀ tile, ∃ r, assignPrograms (programsOn tile memOps) ((gens tile).getD (d.gen tile)) =
      .ok r) : ∃ memOps', assignMemOps d memOps gens = .ok memOps' := by
  induction memOps generalizing gens with
  | nil => exact ⟨[], rfl⟩
  | cons memOp memOps ih =>
    obtain ⟨⟨ps', gen₂⟩, hown⟩ := h memOp.tile
    rw [programsOn_cons_self] at hown
    obtain ⟨p', gen', rest, hp, hrest, -⟩ := assignPrograms_cons_eq_ok.1 hown
    obtain ⟨memOps', hmem⟩ := @ih (Function.update gens memOp.tile (some gen')) fun tile => by
      by_cases heq : memOp.tile = tile
      · subst heq
        rw [Function.update_self]
        exact ⟨_, hrest⟩
      · rw [Function.update_of_ne (Ne.symm heq), ← programsOn_cons_of_ne heq]
        exact h tile
    exact ⟨_, assignMemOps_cons_eq_ok.2 ⟨p', gen', memOps', hp, hmem, rfl⟩⟩

/-- A tile's ids are taken by its reservations, each once. -/
theorem gen_spec (d : Device) (tile : ℤ × ℤ) : (d.gen tile).tm = d.tm ∧ (d.gen tile).tile = tile ∧
    (d.gen tile).alreadyAssigned.Nodup ∧
    ∀ bdId, bdId ∈ (d.gen tile).alreadyAssigned ↔ bdId ∈ d.reserved tile := by
  have hfold : ∀ (reserved : List ℕ) (gen : BdIdGenerator), gen.alreadyAssigned.Nodup →
      let r := reserved.foldl (fun gen bdId =>
        if gen.bdIdAlreadyAssigned bdId then gen else gen.assignBdId bdId) gen
      r.tm = gen.tm ∧ r.tile = gen.tile ∧ r.alreadyAssigned.Nodup ∧
        ∀ bdId, bdId ∈ r.alreadyAssigned ↔ bdId ∈ gen.alreadyAssigned ∨ bdId ∈ reserved := by
    intro reserved
    induction reserved with
    | nil => exact fun gen h => ⟨rfl, rfl, h, fun bdId => by simp⟩
    | cons y reserved ih =>
      intro gen h
      rw [List.foldl_cons]
      split
      · rename_i htaken
        rw [bdIdAlreadyAssigned_iff] at htaken
        obtain ⟨htm, htile, hnodup, hmem⟩ := ih gen h
        refine ⟨htm, htile, hnodup, fun bdId => ?_⟩
        rw [hmem, List.mem_cons]
        constructor
        · exact fun h => h.imp_right Or.inr
        · rintro (h | rfl | h)
          · exact Or.inl h
          · exact Or.inl htaken
          · exact Or.inr h
      · rename_i hfree
        rw [bdIdAlreadyAssigned_iff] at hfree
        obtain ⟨htm, htile, hnodup, hmem⟩ := ih (gen.assignBdId y) (List.nodup_cons.2 ⟨hfree, h⟩)
        refine ⟨htm, htile, hnodup, fun bdId => ?_⟩
        rw [hmem, assignBdId, List.mem_cons, List.mem_cons]
        tauto
  obtain ⟨htm, htile, hnodup, hmem⟩ := hfold (d.reserved tile) ⟨d.tm, tile, []⟩ .nil
  refine ⟨htm, htile, hnodup, fun bdId => (hmem bdId).trans ?_⟩
  rw [or_iff_right List.not_mem_nil]

/-! ## What follows a descriptor -/

/-- Every descriptor names the id of the one that follows it: the next of its `aie.dma`, or the
first again where that loops, or the one of the block that follows its own. -/
def Program.Linked : Program → Prop
  | .dmaForm ops => ∀ op ∈ ops, ∀ i bd, op.bds[i]? = some bd → bd.nextBdId =
      ((op.bds[i + 1]?).or (if op.loop then op.bds.head? else none)).bind DMABDOp.bdId
  | .blockForm blocks => ∀ block ∈ blocks, ∀ bd, block.bd = some bd → bd.nextBdId =
      ((block.terminator.successors.head?).bind fun next => blocks[next]?).bind fun follower =>
        follower.bd.bind DMABDOp.bdId

def Program.EndsClear : Program → Prop
  | .dmaForm _ => True
  | .blockForm blocks => ∀ block ∈ blocks, block.terminator = .End →
      ∀ bd, block.bd = some bd → bd.nextBdId = none

theorem endsClear_mapBds (p : Program) :
    (p.mapBds DMABDOp.unassigned).EndsClear ↔ p.EndsClear := by
  cases p with
  | dmaForm ops => exact Iff.rfl
  | blockForm blocks =>
    simp only [Program.mapBds, Program.EndsClear, List.forall_mem_map, Block.mapBd,
      Option.map_eq_some_iff]
    refine forall_congr' fun block => forall_congr' fun _ => imp_congr_right fun _ => ?_
    constructor
    · exact fun h bd hbd => h bd.unassigned ⟨bd, hbd, rfl⟩
    · rintro h _ ⟨bd, hbd, rfl⟩
      exact h bd hbd

theorem getElem?_linkBds (first : Option ℕ) (bds : List DMABDOp) (i : ℕ) :
    (linkBds first bds)[i]? = (bds[i]?).map fun bd =>
      { bd with nextBdId := ((bds[i + 1]?).map DMABDOp.bdId).getD first } := by
  induction bds generalizing i with
  | nil => rfl
  | cons bd bds ih =>
    cases i with
    | zero => simp [linkBds, List.head?_eq_getElem?]
    | succ i =>
      rw [linkBds, List.getElem?_cons_succ, ih]
      rfl

theorem map_bdId_linkBds (first : Option ℕ) (bds : List DMABDOp) :
    (linkBds first bds).map DMABDOp.bdId = bds.map DMABDOp.bdId := by
  induction bds with
  | nil => rfl
  | cons bd bds ih => rw [linkBds, List.map_cons, List.map_cons, ih]

theorem Block.setNext_eq_ok {blocks : List Block} {block block' : Block} :
    block.setNext blocks = .ok block' ↔ block.bd = none ∧ block = block' ∨
      ∃ bd, block.bd = some bd ∧ (block.terminator = .End ∧ block = block' ∨
        ∃ next follower, block.terminator = .NextBD next ∧ blocks[next]? = some follower ∧
          (follower.bd.isSome ∨ follower.onlyEnd) ∧ { block with
            bd := some { bd with nextBdId := follower.bd.bind DMABDOp.bdId } } = block') := by
  unfold Block.setNext
  cases hbd : block.bd with
  | none => simp
  | some bd =>
    cases hterm : block.terminator with
    | DMAStart channelIndex dest chain => simp [Terminator.successors]
    | End => simp [Terminator.successors]
    | NextBD next =>
      cases hnext : blocks[next]? with
      | none => simp [Terminator.successors, hnext]
      | some follower =>
        cases hfollower : follower.bd with
        | some nextBd => simp [Terminator.successors, hnext, hfollower]
        | none =>
          cases hend : follower.onlyEnd with
          | true => simp [Terminator.successors, hnext, hfollower, hend]
          | false => simp [Terminator.successors, hnext, hfollower, hend]

theorem Block.setNext_keeps {blocks : List Block} {block block' : Block}
    (h : block.setNext blocks = .ok block') : block'.terminator = block.terminator ∧
      block'.mapBd DMABDOp.erased = block.mapBd DMABDOp.erased ∧
      block'.bd.map DMABDOp.bdId = block.bd.map DMABDOp.bdId ∧
      (block.bd.isSome → block.Followed blocks) := by
  rcases Block.setNext_eq_ok.1 h with ⟨hbd, rfl⟩ |
    ⟨bd, hbd, ⟨hterm, rfl⟩ | ⟨next, follower, hterm, hnext, hfollower, rfl⟩⟩
  · exact ⟨rfl, rfl, rfl, fun h => by simp [hbd] at h⟩
  · exact ⟨rfl, rfl, rfl, fun _ => Or.inl hterm⟩
  · refine ⟨rfl, ?_, by rw [hbd]; rfl, fun _ => Or.inr ⟨next, follower, hterm, hnext, hfollower⟩⟩
    rw [Block.mapBd, Block.mapBd, hbd]
    rfl

theorem map_filterMap_bd {blocks blocks' : List Block}
    (h : List.Forall₂ (fun block block' : Block =>
      block'.bd.map DMABDOp.bdId = block.bd.map DMABDOp.bdId) blocks blocks') :
    (blocks'.filterMap Block.bd).map DMABDOp.bdId =
      (blocks.filterMap Block.bd).map DMABDOp.bdId := by
  rw [List.map_filterMap, List.map_filterMap]
  induction h with
  | nil => rfl
  | cons hblock _ ih => rw [List.filterMap_cons, List.filterMap_cons, hblock, ih]

theorem linked_iff_endsClear {blocks blocks' : List Block}
    (h : List.Forall₂ (fun block block' => block.setNext blocks = .ok block') blocks blocks') :
    (Program.blockForm blocks').Linked ↔ (Program.blockForm blocks).EndsClear := by
  constructor
  · intro hlinked block hblock hterm bd hbd
    obtain ⟨i, hi, rfl⟩ := List.getElem_of_mem hblock
    have hi' : i < blocks'.length := h.length_eq ▸ hi
    have hset := (List.forall₂_iff_get.1 h).2 i hi hi'
    rw [List.get_eq_getElem, List.get_eq_getElem] at hset
    rcases Block.setNext_eq_ok.1 hset with ⟨hnone, -⟩ | ⟨bd', -, ⟨-, heq⟩ | ⟨_, _, hnext, -⟩⟩
    · rw [hbd] at hnone
      cases hnone
    · have hown := hlinked _ (List.getElem_mem hi') bd (by rw [← heq, hbd])
      rw [← heq, hterm] at hown
      exact hown
    · rw [hterm] at hnext
      cases hnext
  · intro hends block' hblock' bd' hbd'
    obtain ⟨i, hi', rfl⟩ := List.getElem_of_mem hblock'
    have hi : i < blocks.length := h.length_eq ▸ hi'
    have hset := (List.forall₂_iff_get.1 h).2 i hi hi'
    rw [List.get_eq_getElem, List.get_eq_getElem] at hset
    rcases Block.setNext_eq_ok.1 hset with ⟨hnone, heq⟩ |
      ⟨bd, hbd, ⟨hterm, heq⟩ | ⟨next, follower, hterm, hnext, -, heq⟩⟩
    · rw [← heq, hnone] at hbd'
      cases hbd'
    · rw [← heq] at hbd' ⊢
      rw [hends _ (List.getElem_mem hi) hterm bd' hbd', hterm]
      rfl
    · rw [← heq] at hbd' ⊢
      cases hbd'
      obtain ⟨hlt, rfl⟩ := List.getElem?_eq_some_iff.1 hnext
      have hlt' : next < blocks'.length := h.length_eq ▸ hlt
      have hfollow := (List.forall₂_iff_get.1 h).2 next hlt hlt'
      rw [List.get_eq_getElem, List.get_eq_getElem] at hfollow
      have hid := (Block.setNext_keeps hfollow).2.2.1
      dsimp only
      rw [hterm, Terminator.successors, List.head?_cons, Option.bind_some,
        List.getElem?_eq_getElem hlt', Option.bind_some]
      have hbind : ∀ bd : Option DMABDOp, bd.bind DMABDOp.bdId =
          (bd.map DMABDOp.bdId).bind id := fun bd => by
        rw [Option.bind_map]
        rfl
      rw [hbind, hbind, hid]

/-- The descriptors of one `aie.dma`. -/
theorem linkBds_linked (loop : Bool) (bds : List DMABDOp) (i : ℕ) (bd : DMABDOp)
    (h : (linkBds (if loop then bds.head?.bind DMABDOp.bdId else none) bds)[i]? = some bd) :
    bd.nextBdId = (((linkBds (if loop then bds.head?.bind DMABDOp.bdId else none) bds)[i + 1]?).or
      (if loop then (linkBds (if loop then bds.head?.bind DMABDOp.bdId else none) bds).head?
        else none)).bind DMABDOp.bdId := by
  generalize hfirst : (if loop then bds.head?.bind DMABDOp.bdId else none) = first at h ⊢
  have hids : ∀ j : ℕ, ((linkBds first bds)[j]?).bind DMABDOp.bdId =
      (bds[j]?).bind DMABDOp.bdId := by
    intro j
    have hj := congrArg (fun l => (l[j]?).bind id) (map_bdId_linkBds first bds)
    simpa only [List.getElem?_map, Option.bind_map, Function.id_comp] using hj
  rw [getElem?_linkBds] at h
  obtain ⟨bd, -, rfl⟩ := Option.map_eq_some_iff.1 h
  dsimp only
  rw [getElem?_linkBds]
  cases hi : bds[i + 1]? with
  | some follower => rfl
  | none =>
    rw [Option.map_none, Option.map_none, Option.none_or, Option.getD_none]
    subst hfirst
    cases loop with
    | false => rfl
    | true =>
      rw [List.head?_eq_getElem?, List.head?_eq_getElem?] at *
      exact (hids 0).symm

theorem DMAOp.mapBds_setNext (ops : List DMAOp) :
    (Program.dmaForm (ops.map DMAOp.setNext)).mapBds DMABDOp.erased =
      (Program.dmaForm ops).mapBds DMABDOp.erased := by
  rw [Program.mapBds, Program.mapBds, List.map_map]
  congr 2
  funext op
  have herase : ∀ first bds, (linkBds first bds).map DMABDOp.erased =
      bds.map DMABDOp.erased := by
    intro first bds
    induction bds with
    | nil => rfl
    | cons bd bds ih => rw [linkBds, List.map_cons, List.map_cons, ih]; rfl
  rw [Function.comp_apply, DMAOp.mapBds, DMAOp.mapBds, DMAOp.setNext, herase]

theorem bds_setNext (ops : List DMAOp) :
    (Program.dmaForm (ops.map DMAOp.setNext)).bds.map DMABDOp.bdId =
      (Program.dmaForm ops).bds.map DMABDOp.bdId := by
  rw [Program.bds, Program.bds, List.flatMap_map, List.map_flatMap, List.map_flatMap]
  congr 1
  funext op
  exact map_bdId_linkBds _ _

/-- **The second pass** on a program. -/
theorem setNext_spec {p p' : Program} (h : p.setNext = .ok p') : p.Followed ∧
    p'.mapBds DMABDOp.erased = p.mapBds DMABDOp.erased ∧
    p'.bds.map DMABDOp.bdId = p.bds.map DMABDOp.bdId ∧ (p'.Linked ↔ p.EndsClear) := by
  cases p with
  | dmaForm ops =>
    cases h
    refine ⟨trivial, DMAOp.mapBds_setNext ops, bds_setNext ops,
      iff_of_true ?_ trivial⟩
    intro op' hop' i bd hbd
    obtain ⟨op, -, rfl⟩ := List.mem_map.1 hop'
    exact linkBds_linked op.loop op.bds i bd hbd
  | blockForm blocks =>
    obtain ⟨blocks', hblocks, h⟩ := bind_eq_ok.1 h
    cases h
    have hall := mapM_ok hblocks
    refine ⟨fun block hblock hbd => ?_, ?_, ?_, linked_iff_endsClear hall⟩
    · obtain ⟨i, hi, rfl⟩ := List.getElem_of_mem hblock
      have hset := (List.forall₂_iff_get.1 hall).2 i hi (hall.length_eq ▸ hi)
      exact (Block.setNext_keeps hset).2.2.2 hbd
    · exact congrArg Program.blockForm (map_eq_of_forall₂ (hall.imp fun _ _ h =>
        (Block.setNext_keeps h).2.1.symm)).symm
    · exact map_filterMap_bd (hall.imp fun _ _ h => (Block.setNext_keeps h).2.2.1)

theorem exists_setNext {p : Program} (h : p.Followed) : ∃ p', p.setNext = .ok p' := by
  cases p with
  | dmaForm ops => exact ⟨_, rfl⟩
  | blockForm blocks =>
    have hblock : ∀ block ∈ blocks, ∃ block', block.setNext blocks = .ok block' := by
      intro block hmem
      cases hbd : block.bd with
      | none => exact ⟨block, Block.setNext_eq_ok.2 (Or.inl ⟨hbd, rfl⟩)⟩
      | some bd =>
        rcases h block hmem (by rw [hbd]; rfl) with hterm | ⟨next, follower, hterm, hnext, hf⟩
        · exact ⟨block, Block.setNext_eq_ok.2 (Or.inr ⟨bd, hbd, Or.inl ⟨hterm, rfl⟩⟩)⟩
        · exact ⟨_, Block.setNext_eq_ok.2
            (Or.inr ⟨bd, hbd, Or.inr ⟨next, follower, hterm, hnext, hf, rfl⟩⟩)⟩
    choose! f hf using hblock
    refine ⟨.blockForm (blocks.map f), bind_eq_ok.2 ⟨blocks.map f, mapM_eq_ok.2 ?_, rfl⟩⟩
    rw [List.forall₂_map_right_iff]
    exact List.forall₂_same.2 hf

/-! ## The pass -/

/-- The two families of devices: every channel reaches every id, or on the memory tiles the even
channels reach one half and the odd channels the other. -/
def BdFamily (tm : AIETargetModel) : Prop :=
  (∀ t, tm.getNumBDs t = 16) ∧ (∀ col row bdId c, tm.isBdChannelAccessible col row bdId c = true) ∨
  (∀ t, tm.getNumBDs t = if t = .MemTile then 48 else 16) ∧
    ∀ col row bdId c, tm.isBdChannelAccessible col row bdId c =
      if tm.getTileType col row = .MemTile then
        if c % 2 = 0 then decide (bdId < 24) else decide (bdId ≥ 24)
      else true

theorem BdFamily.accessible_eq {gen : BdIdGenerator} (h : BdFamily gen.tm) {x : ℕ} {c c' : ℤ}
    (hc : gen.accessible x c = true) (hc' : gen.accessible x c' = true) (y : ℕ) :
    gen.accessible y c = gen.accessible y c' := by
  unfold accessible at *
  rcases h with ⟨-, h⟩ | ⟨-, h⟩
  · rw [h, h]
  · rw [h] at hc hc' ⊢
    rw [h]
    by_cases hmem : gen.tm.getTileType gen.tile.1 gen.tile.2 = .MemTile
    · simp only [if_pos hmem] at hc hc' ⊢
      by_cases heven : c % 2 = 0
      · by_cases heven' : c' % 2 = 0
        · rw [if_pos heven, if_pos heven']
        · rw [if_pos heven, decide_eq_true_eq] at hc
          rw [if_neg heven', decide_eq_true_eq] at hc'
          omega
      · by_cases heven' : c' % 2 = 0
        · rw [if_neg heven, decide_eq_true_eq] at hc
          rw [if_pos heven', decide_eq_true_eq] at hc'
          omega
        · rw [if_neg heven, if_neg heven']
    · simp only [if_neg hmem]

/-- A device of a family, whose pinned ids the verifier has compared with the tile's number. -/
structure Device.Verified (d : Device) : Prop where
  family : BdFamily d.tm
  pinned : ∀ memOp ∈ d.memOps, ∀ bdId ∈ ids memOp.program.bds, bdId < (d.gen memOp.tile).numBDs

/-- **Sound ids:** they fit on every tile, and every descriptor names what follows it. -/
structure Device.Sound (d d' : Device) : Prop where
  rest : d' = { d with memOps := d'.memOps }
  tiles : d'.memOps.map MemOp.tile = d.memOps.map MemOp.tile
  fits : ∀ tile, Fits (d.gen tile) (d.reserved tile) (programsOn tile d.memOps)
    (programsOn tile d'.memOps)
  linked : ∀ memOp ∈ d'.memOps, memOp.program.Linked

/-- The channels that share a descriptor reach the same ids. -/
def Program.Agrees (gen : BdIdGenerator) (p : Program) : Prop :=
  ∀ cs ∈ p.channels, ∀ c ∈ cs, ∀ c' ∈ cs, ∀ bdId, gen.accessible bdId c = gen.accessible bdId c'

/-- No chain mixes channels of different reach, and none ends in a descriptor that names another. -/
structure Device.Clean (d : Device) : Prop where
  agrees : ∀ memOp ∈ d.memOps, memOp.program.Agrees (d.gen memOp.tile)
  ends : ∀ memOp ∈ d.memOps, memOp.program.EndsClear

/-- A program after both passes. -/
structure Final (gen : BdIdGenerator) (p p' : Program) : Prop where
  same : p'.mapBds DMABDOp.erased = p.mapBds DMABDOp.erased
  keeps : List.Forall₂ Keeps p.bds p'.bds
  bounded : ∀ bdId ∈ ids p'.bds, bdId ∈ ids p.bds ∨ bdId < gen.numBDs
  reaches : List.Forall₂ (Reaches gen) p'.channels p'.bds ↔ p.Agrees gen
  linked : p'.Linked ↔ p.EndsClear

theorem ids_congr {bds bds' : List DMABDOp}
    (h : bds'.map DMABDOp.bdId = bds.map DMABDOp.bdId) : ids bds' = ids bds := by
  have hids : ∀ l : List DMABDOp, ids l = (l.map DMABDOp.bdId).filterMap id := fun l => by
    rw [List.filterMap_map]
    rfl
  rw [hids, hids, h]

theorem bdId_getElem {bds bds' : List DMABDOp}
    (h : bds'.map DMABDOp.bdId = bds.map DMABDOp.bdId) {i : ℕ} (hi' : i < bds'.length)
    (hi : i < bds.length) : bds'[i].bdId = bds[i].bdId := by
  have hget := congrArg (fun l => l[i]?) h
  simpa [hi, hi'] using hget

theorem mapBds_erased_congr {p p' : Program}
    (h : p'.mapBds DMABDOp.unassigned = p.mapBds DMABDOp.unassigned) :
    p'.mapBds DMABDOp.erased = p.mapBds DMABDOp.erased := by
  have hcomp := congrArg (Program.mapBds DMABDOp.erased) h
  rwa [mapBds_mapBds, mapBds_mapBds] at hcomp

/-- **Both passes** on one program. -/
theorem final_of_assigned {gen : BdIdGenerator} (hfamily : BdFamily gen.tm) {p p₁ p₂ : Program}
    (h₁ : AssignedAs gen p p₁) (h₂ : p₁.setNext = .ok p₂) : Final gen p p₂ := by
  obtain ⟨hfollowed, herased, hids, hlinked⟩ := setNext_spec h₂
  have hsame := mapBds_erased_congr h₁.same
  have hlen : p₂.bds.length = p₁.bds.length := by
    rw [← List.length_map DMABDOp.bdId, hids, List.length_map]
  have hkeeps : List.Forall₂ Keeps p.bds p₂.bds := by
    refine List.forall₂_iff_get.2 ⟨hlen ▸ h₁.keeps.length_eq, fun i hi hi₂ => ?_⟩
    have hget := (List.forall₂_iff_get.1 h₁.keeps).2 i hi (hlen ▸ hi₂)
    rw [List.get_eq_getElem, List.get_eq_getElem, Keeps] at hget ⊢
    rwa [bdId_getElem hids hi₂ (hlen ▸ hi₂)]
  have hpfollowed : p.Followed := by
    rw [← followed_mapBds DMABDOp.erased, ← hsame, followed_mapBds]
    exact hfollowed
  have hchannels : p₂.channels = p.channels := by
    rw [← channels_mapBds DMABDOp.erased, herased, hsame, channels_mapBds]
  obtain ⟨reqs, hreqs, hreach⟩ := h₁.reaches
  have hchan := requests_channels hpfollowed hreqs
  refine ⟨herased.trans hsame, hkeeps, ?_, ?_, ?_⟩
  · rw [ids_congr hids]
    exact h₁.bounded
  · rw [hchannels]
    have hclen := length_channels p
    constructor
    · intro hall cs hcs c hc c' hc'
      obtain ⟨i, hi, rfl⟩ := List.getElem_of_mem hcs
      have hi₂ : i < p₂.bds.length := hall.length_eq ▸ hi
      have hget := (List.forall₂_iff_get.1 hall).2 i hi hi₂
      have hkeep := (List.forall₂_iff_get.1 hkeeps).2 i (hclen ▸ hi) hi₂
      rw [List.get_eq_getElem, List.get_eq_getElem] at hget hkeep
      obtain ⟨x, hx⟩ := Option.isSome_iff_exists.1 hkeep.1
      exact hfamily.accessible_eq (hget x hx c hc) (hget x hx c' hc')
    · intro hagrees
      refine List.forall₂_iff_get.2 ⟨hclen.trans hkeeps.length_eq, fun i hi hi₂ x hx c hc => ?_⟩
      rw [List.get_eq_getElem] at hx hc
      have hi₁ : i < p₁.bds.length := hlen ▸ hi₂
      have hir : i < reqs.length := hchan.length_eq ▸ hi
      have hown := (List.forall₂_iff_get.1 hreach).2 i hir hi₁
      have hin := (List.forall₂_iff_get.1 hchan).2 i hir hi
      rw [List.get_eq_getElem, List.get_eq_getElem] at hown hin
      rw [hagrees _ (List.getElem_mem hi) c hc _ hin]
      exact hown x (by rw [← bdId_getElem hids hi₂ hi₁, hx])
  · rw [hlinked, ← endsClear_mapBds, h₁.same, endsClear_mapBds]

theorem MemOp.setNext_eq_ok {memOp memOp' : MemOp} : memOp.setNext = .ok memOp' ↔
    ∃ p', memOp.program.setNext = .ok p' ∧ memOp' = { memOp with program := p' } := by
  constructor
  · intro h
    obtain ⟨p', hp, h⟩ := bind_eq_ok.1 h
    cases h
    exact ⟨p', hp, rfl⟩
  · rintro ⟨p', hp, rfl⟩
    exact bind_eq_ok.2 ⟨p', hp, rfl⟩

theorem programsOn_setNext {memOps memOps' : List MemOp}
    (h : List.Forall₂ (fun memOp memOp' => memOp.setNext = .ok memOp') memOps memOps')
    (tile : ℤ × ℤ) : List.Forall₂ (fun p p' => p.setNext = .ok p') (programsOn tile memOps)
      (programsOn tile memOps') := by
  induction h with
  | nil => exact .nil
  | @cons memOp memOp' memOps memOps' hset _ ih =>
    obtain ⟨p', hp, rfl⟩ := MemOp.setNext_eq_ok.1 hset
    by_cases htile : memOp.tile = tile
    · subst htile
      rw [programsOn_cons_self, programsOn_cons_self { memOp with program := p' }]
      exact .cons hp ih
    · rw [programsOn_cons_of_ne htile,
        @programsOn_cons_of_ne tile { memOp with program := p' } htile]
      exact ih

theorem assignBufferDescriptorIDs_eq_ok {d d' : Device} : assignBufferDescriptorIDs d = .ok d' ↔
    ∃ memOps memOps', assignMemOps d d.memOps (fun _ => none) = .ok memOps ∧
      List.Forall₂ (fun memOp memOp' => memOp.setNext = .ok memOp') memOps memOps' ∧
      d' = { d with memOps := memOps' } := by
  constructor
  · intro h
    obtain ⟨memOps, hmem, h⟩ := bind_eq_ok.1 h
    obtain ⟨memOps', hset, h⟩ := bind_eq_ok.1 h
    cases h
    exact ⟨memOps, memOps', hmem, mapM_ok hset, rfl⟩
  · rintro ⟨memOps, memOps', hmem, hset, rfl⟩
    exact bind_eq_ok.2 ⟨memOps, hmem, bind_eq_ok.2 ⟨memOps', mapM_eq_ok.2 hset, rfl⟩⟩

theorem final_onTile {d d' : Device} (hfamily : BdFamily d.tm)
    (h : assignBufferDescriptorIDs d = .ok d') (tile : ℤ × ℤ) :
    List.Forall₂ (Final (d.gen tile)) (programsOn tile d.memOps) (programsOn tile d'.memOps) ∧
      (ids ((programsOn tile d'.memOps).flatMap Program.bds) ++
        (d.gen tile).alreadyAssigned).Nodup := by
  obtain ⟨memOps, memOps', hmem, hset, rfl⟩ := assignBufferDescriptorIDs_eq_ok.1 h
  obtain ⟨gen', hprograms⟩ := (assignMemOps_onTile hmem).2 tile
  obtain ⟨htm, -, hnodup, -⟩ := gen_spec d tile
  obtain ⟨hall, hperm, hkeeps⟩ := assignPrograms_spec hprograms
  have hnext := programsOn_setNext hset tile
  rw [Option.getD_none] at hall hperm hkeeps
  have hids : ids ((programsOn tile memOps').flatMap Program.bds) =
      ids ((programsOn tile memOps).flatMap Program.bds) := by
    refine ids_congr ?_
    rw [List.map_flatMap, List.map_flatMap, List.flatMap_def, List.flatMap_def]
    exact congrArg List.flatten (map_eq_of_forall₂ (hnext.imp fun _ _ h =>
      (setNext_spec h).2.2.1.symm)).symm
  constructor
  · refine List.forall₂_iff_get.2
      ⟨hall.length_eq.trans hnext.length_eq, fun i hi hi' => ?_⟩
    have hi₁ := hall.length_eq ▸ hi
    exact final_of_assigned (htm ▸ hfamily) ((List.forall₂_iff_get.1 hall).2 i hi hi₁)
      ((List.forall₂_iff_get.1 hnext).2 i hi₁ hi')
  · dsimp only
    rw [hids]
    exact hperm.nodup_iff.1 (hkeeps hnodup)

/-- **A success is sound** exactly where no chain mixes channels of different reach, and none ends
in a descriptor that names another one. -/
theorem assignBufferDescriptorIDs_sound_iff {d d' : Device} (hverified : d.Verified)
    (h : assignBufferDescriptorIDs d = .ok d') : d.Sound d' ↔ d.Clean := by
  have hfinal := final_onTile hverified.family h
  have hmem : ∀ memOp ∈ d.memOps, ∃ memOp' ∈ d'.memOps, memOp'.tile = memOp.tile ∧
      Final (d.gen memOp.tile) memOp.program memOp'.program := by
    intro memOp hmemOp
    have hp : memOp.program ∈ programsOn memOp.tile d.memOps :=
      mem_programsOn.mpr ⟨memOp, hmemOp, rfl, rfl⟩
    obtain ⟨i, hi, hget⟩ := List.getElem_of_mem hp
    have hi' := (hfinal memOp.tile).1.length_eq ▸ hi
    have hown := (List.forall₂_iff_get.mp (hfinal memOp.tile).1).2 i hi hi'
    rw [List.get_eq_getElem, List.get_eq_getElem, hget] at hown
    obtain ⟨memOp', hmemOp', htile, heq⟩ := mem_programsOn.mp (List.getElem_mem hi')
    exact ⟨memOp', hmemOp', htile, heq ▸ hown⟩
  have hmem' : ∀ memOp' ∈ d'.memOps, ∃ memOp ∈ d.memOps, memOp.tile = memOp'.tile ∧
      Final (d.gen memOp.tile) memOp.program memOp'.program := by
    intro memOp' hmemOp'
    have hp : memOp'.program ∈ programsOn memOp'.tile d'.memOps :=
      mem_programsOn.mpr ⟨memOp', hmemOp', rfl, rfl⟩
    obtain ⟨i, hi', hget⟩ := List.getElem_of_mem hp
    have hi := (hfinal memOp'.tile).1.length_eq ▸ hi'
    have hown := (List.forall₂_iff_get.mp (hfinal memOp'.tile).1).2 i hi hi'
    rw [List.get_eq_getElem, List.get_eq_getElem, hget] at hown
    obtain ⟨memOp, hmemOp, htile, heq⟩ := mem_programsOn.mp (List.getElem_mem hi)
    exact ⟨memOp, hmemOp, htile, by rw [htile, heq]; exact hown⟩
  constructor
  · intro hsound
    refine ⟨fun memOp hmemOp => ?_, fun memOp hmemOp => ?_⟩
    · obtain ⟨memOp', hmemOp', htile, hown⟩ := hmem memOp hmemOp
      refine hown.reaches.mp ((hsound.fits memOp.tile).reaches _ ?_)
      exact mem_programsOn.mpr ⟨memOp', hmemOp', htile, rfl⟩
    · obtain ⟨memOp', hmemOp', -, hown⟩ := hmem memOp hmemOp
      exact hown.linked.mp (hsound.linked memOp' hmemOp')
  · intro hclean
    obtain ⟨memOps, memOps', hassign, hset, rfl⟩ := assignBufferDescriptorIDs_eq_ok.mp h
    refine ⟨rfl, ?_, fun tile => ?_, fun memOp' hmemOp' => ?_⟩
    · rw [← (assignMemOps_onTile hassign).1]
      refine (map_eq_of_forall₂ (hset.imp fun _ _ h => ?_)).symm
      obtain ⟨p', -, rfl⟩ := MemOp.setNext_eq_ok.mp h
      rfl
    · obtain ⟨hall, hnodup⟩ := hfinal tile
      obtain ⟨hdistinct, -, hdisjoint⟩ := List.nodup_append.mp hnodup
      refine ⟨hall.imp fun _ _ h => ⟨h.same, h.keeps⟩, hdistinct, fun x hx => ⟨?_, ?_⟩, ?_⟩
      · obtain ⟨bd, hbd, hid⟩ := mem_ids.mp hx
        obtain ⟨p', hp', hbd⟩ := List.mem_flatMap.mp hbd
        obtain ⟨memOp', hmemOp', htile', rfl⟩ := mem_programsOn.mp hp'
        obtain ⟨memOp, hmemOp, htile, hown⟩ := hmem' memOp' hmemOp'
        rw [htile, htile'] at hown
        rcases hown.bounded x (mem_ids.mpr ⟨bd, hbd, hid⟩) with hpin | hlt
        · rw [← htile', ← htile]
          exact hverified.pinned memOp hmemOp x hpin
        · exact hlt
      · intro hreserved
        exact hdisjoint x hx x ((gen_spec d tile).2.2.2 x |>.mpr hreserved) rfl
      · intro p' hp'
        obtain ⟨memOp', hmemOp', htile', rfl⟩ := mem_programsOn.mp hp'
        obtain ⟨memOp, hmemOp, htile, hown⟩ := hmem' memOp' hmemOp'
        have hagrees := hown.reaches.mpr (hclean.agrees memOp hmemOp)
        rwa [htile, htile'] at hagrees
    · obtain ⟨memOp, hmemOp, -, hown⟩ := hmem' memOp' hmemOp'
      exact hown.linked.mpr (hclean.ends memOp hmemOp)

def memTile (blocks : List Block) : Device where
  tm := AIE2TargetModel (fun _ _ => .MemTile) []
  tiles := [⟨(0, 1), [1]⟩]
  memOps := [⟨(0, 1), .blockForm blocks⟩]

theorem bdFamily_AIE2 (tileType : ℤ → ℤ → AIETileType) (bursts : List (ℕ × ℕ)) :
    BdFamily (AIE2TargetModel tileType bursts) := Or.inr ⟨fun _ => rfl, fun _ _ _ _ => rfl⟩

def loopingChain : Device :=
  memTile [⟨none, false, .DMAStart 0 1 4⟩, ⟨some {}, false, .NextBD 2⟩,
    ⟨some ⟨some 0, none⟩, false, .NextBD 3⟩, ⟨some {}, false, .NextBD 1⟩, ⟨none, false, .End⟩]

theorem loopingChain_sound_iff : loopingChain.Sound (memTile [⟨none, false, .DMAStart 0 1 4⟩,
    ⟨some ⟨some 2, some 0⟩, false, .NextBD 2⟩, ⟨some ⟨some 0, some 3⟩, false, .NextBD 3⟩,
    ⟨some ⟨some 3, some 2⟩, false, .NextBD 1⟩, ⟨none, false, .End⟩]) ↔ loopingChain.Clean :=
  assignBufferDescriptorIDs_sound_iff ⟨bdFamily_AIE2 _ _, by decide⟩ rfl

/-- The chains of an even and of an odd channel meet in one descriptor. -/
def sharedChain : Device :=
  memTile [⟨none, false, .DMAStart 0 2 1⟩, ⟨none, false, .DMAStart 1 2 3⟩,
    ⟨some {}, false, .NextBD 3⟩, ⟨none, false, .End⟩]

/-- A chain that ends in its only descriptor, which names another one in the input. -/
def staleEnd : Device :=
  memTile [⟨none, false, .DMAStart 0 1 2⟩, ⟨some ⟨none, some 7⟩, false, .End⟩,
    ⟨none, false, .End⟩]

/-- The shared descriptor gets an id that the even channel does not reach; the last one of a chain
names a descriptor that does not follow it. -/
theorem sharedChain_staleEnd_unsound :
    (sharedChain.Verified ∧ ∃ d', assignBufferDescriptorIDs sharedChain = .ok d' ∧
      ¬ sharedChain.Sound d') ∧
    staleEnd.Verified ∧ ∃ d', assignBufferDescriptorIDs staleEnd = .ok d' ∧
      ¬ staleEnd.Sound d' := by
  refine ⟨⟨⟨bdFamily_AIE2 _ _, by decide⟩, memTile [⟨none, false, .DMAStart 0 2 1⟩,
    ⟨none, false, .DMAStart 1 2 3⟩, ⟨some ⟨some 24, none⟩, false, .NextBD 3⟩,
    ⟨none, false, .End⟩], rfl, fun h => ?_⟩, ⟨bdFamily_AIE2 _ _, by decide⟩,
    memTile [⟨none, false, .DMAStart 0 1 2⟩, ⟨some ⟨some 0, some 7⟩, false, .End⟩,
      ⟨none, false, .End⟩], rfl, fun h => ?_⟩
  · have hreaches := (h.fits (0, 1)).reaches _ List.mem_cons_self
    cases hreaches with
    | cons hown _ =>
      have heven := hown 24 rfl 0 ⟨0, 2, ⟨1, rfl⟩, .refl⟩
      exact absurd heven (by decide)
  · have hlinked := h.linked _ List.mem_cons_self _ (List.mem_cons_of_mem _ List.mem_cons_self)
      ⟨some 0, some 7⟩ rfl
    cases hlinked

end MlirAie.StaticBd
