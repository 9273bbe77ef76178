import MlirAie.Dma.TaskStream
import MlirAie.Lib.Fresh

/-!
# Splitting the memcpys of a sequence

A memcpy no descriptor holds is replaced by one memcpy for each pattern of its decomposition, on the
first descriptor ids from its own on that no other memcpy of the same metadata uses.

* `mem_allocateIds`: the ids a split takes;
* `IdsDistinct`: no two memcpys on a tile share an id, and the tile has each;
* **`splits_idsDistinct_iff`**: a run of splits keeps that as long as there is room for each.
-/

namespace MlirAie.Dma

open MlirAie.Bd MlirAie.Lib

/-! ## The pass -/

structure SymbolRef where
  root : String
  nested : List String := []
deriving DecidableEq, Repr

structure NpuDmaMemcpyNdOp where
  pattern : Option Nd4Pattern
  elemWidth : ℕ
  runtimeLength : Bool := false
  metadata : SymbolRef
  id : ℤ
  issueToken : Bool := false

/-- The target of a device, and the tiles its shim allocations name. -/
structure MemcpyDevice where
  tm : AIETargetModel
  allocation : String → Option (ℤ × ℤ)

/-- The first id from `startId` on that is not used. -/
def allocateNextId (startId : ℤ) (usedIds : List ℤ) : ℤ := firstFresh (fun k => startId + k) usedIds

def createDecomposedOps (op : NpuDmaMemcpyNdOp) :
    List NdDmaPattern → ℤ → List ℤ → List NpuDmaMemcpyNdOp
  | [], _, _ => []
  | subPattern :: bds, nextId, usedIds =>
    let id := allocateNextId nextId usedIds
    { op with pattern := some (.ofDims subPattern.dims 0), id := id,
              issueToken := bds.isEmpty && op.issueToken } ::
      createDecomposedOps op bds (id + 1) (id :: usedIds)

/-- The ids the other memcpys of the metadata use. -/
def usedIds (others : List NpuDmaMemcpyNdOp) (op : NpuDmaMemcpyNdOp) : List ℤ :=
  (others.filter fun other => other.metadata = op.metadata).map NpuDmaMemcpyNdOp.id

namespace MemcpyDevice

variable (D : MemcpyDevice)

def tileOf (op : NpuDmaMemcpyNdOp) : Option (ℤ × ℤ) := D.allocation op.metadata.root

def numBDs (tile : ℤ × ℤ) : ℕ := D.tm.getNumBDs (D.tm.getTileType tile.1 tile.2)

/-- The patterns of the memcpys that take the place of one, if it is not left as it is. -/
def decomposed (op : NpuDmaMemcpyNdOp) : Option (List NdDmaPattern) := do
  let pattern ← op.pattern
  if op.runtimeLength then none
  else if isContiguousTransfer pattern.sizes pattern.strides then none
  else
    let tile ← D.tileOf op
    let T : DmaTarget := ⟨D.tm, tile.1, tile.2, op.elemWidth⟩
    if T.patternPassesVerification pattern then none
    else
      let bds ← T.decomposeNdDmaPattern pattern.toDims.toVectors
      if bds.isEmpty ∨ bds.length > D.numBDs tile then none else some bds

/-- The memcpys in place of `op`, with the other memcpys of its sequence. -/
def decomposeMemcpy (others : List NpuDmaMemcpyNdOp) (op : NpuDmaMemcpyNdOp) :
    List NpuDmaMemcpyNdOp :=
  match D.decomposed op with
  | none => [op]
  | some [subPattern] => [{ op with pattern := some (.ofDims subPattern.dims 0) }]
  | some bds => createDecomposedOps op bds op.id (usedIds others op)

/-- The memcpys of a sequence in turn, those `before` done. -/
def decomposeMemcpys : List NpuDmaMemcpyNdOp → List NpuDmaMemcpyNdOp → List NpuDmaMemcpyNdOp
  | before, [] => before
  | before, op :: after =>
    decomposeMemcpys (before ++ D.decomposeMemcpy (before ++ after) op) after

/-- The sequence after its memcpy number `i` is decomposed. -/
def splitAt (seq : List NpuDmaMemcpyNdOp) (i : ℕ) : List NpuDmaMemcpyNdOp :=
  match seq[i]? with
  | none => seq
  | some op => seq.take i ++ D.decomposeMemcpy (seq.take i ++ seq.drop (i + 1)) op ++
      seq.drop (i + 1)

/-- The sequence after the memcpys of those numbers are decomposed one after another. -/
def splits (seq : List NpuDmaMemcpyNdOp) (is : List ℕ) : List NpuDmaMemcpyNdOp :=
  is.foldl D.splitAt seq

/-- No two memcpys on a tile share an id, and each id is one of the tile's. -/
structure IdsDistinct (seq : List NpuDmaMemcpyNdOp) : Prop where
  distinct : seq.Pairwise fun a b => ∀ tile, D.tileOf a = some tile → D.tileOf b = some tile →
    a.id ≠ b.id
  bounded : ∀ op ∈ seq, ∀ tile, D.tileOf op = some tile → 0 ≤ op.id ∧ op.id < D.numBDs tile

end MemcpyDevice

/-! ## The ids a split takes -/

variable {start x : ℤ} {used : List ℤ} {n : ℕ}

/-- How many ids from `start` on are not used below `x`. -/
def unusedBelow (start : ℤ) (used : List ℤ) (x : ℤ) : ℕ :=
  ((Finset.range (x - start).toNat).filter fun k : ℕ => start + k ∉ used).card

theorem unusedBelow_eq (start : ℤ) (used : List ℤ) (x : ℤ) :
    unusedBelow start used x = ((Finset.Ico start x).filter fun id => id ∉ used).card := by
  refine Finset.card_nbij' (fun k => start + (k : ℤ)) (fun id => (id - start).toNat) ?_ ?_ ?_ ?_
  · intro k hk
    simp only [Finset.coe_filter, Finset.mem_range, Finset.mem_Ico, Set.mem_ofPred_eq] at hk ⊢
    exact ⟨by omega, hk.2⟩
  · intro id hid
    simp only [Finset.coe_filter, Finset.mem_range, Finset.mem_Ico, Set.mem_ofPred_eq] at hid ⊢
    have hback : start + ((id - start).toNat : ℤ) = id := by omega
    exact ⟨by omega, hback.symm ▸ hid.2⟩
  · intro k _
    simp
  · intro id hid
    simp only [Finset.coe_filter, Finset.mem_Ico, Set.mem_ofPred_eq] at hid
    show start + ((id - start).toNat : ℤ) = id
    omega

theorem unusedBelow_mono {y : ℤ} (h : x ≤ y) :
    unusedBelow start used x ≤ unusedBelow start used y := by
  rw [unusedBelow_eq, unusedBelow_eq]
  exact Finset.card_le_card (Finset.filter_subset_filter _ (Finset.Ico_subset_Ico_right h))

theorem allocateNextId_spec (start : ℤ) (used : List ℤ) :
    start ≤ allocateNextId start used ∧ allocateNextId start used ∉ used ∧
      ∀ y, start ≤ y → y < allocateNextId start used → y ∈ used := by
  have hinj : Function.Injective fun k : ℕ => start + (k : ℤ) := fun a b h => by
    simpa using h
  obtain ⟨k, hk, hleast⟩ := firstFresh_least (fun k : ℕ => start + (k : ℤ)) used
  refine ⟨?_, firstFresh_not_mem hinj, fun y hy hlt => ?_⟩
  · rw [allocateNextId, hk]
    omega
  · rw [allocateNextId, hk] at hlt
    have hused := hleast (y - start).toNat (by omega)
    rwa [show start + ((y - start).toNat : ℤ) = y by omega] at hused

/-- The ids of the memcpys in place of one. -/
def allocateIds : ℕ → ℤ → List ℤ → List ℤ
  | 0, _, _ => []
  | n + 1, nextId, used =>
    let id := allocateNextId nextId used
    id :: allocateIds n (id + 1) (id :: used)

/-- **The ids a split takes** are the first ones from its own on that are not used. -/
theorem mem_allocateIds :
    x ∈ allocateIds n start used ↔ start ≤ x ∧ x ∉ used ∧ unusedBelow start used x < n := by
  induction n generalizing start used with
  | zero => simp [allocateIds]
  | succ n ih =>
    obtain ⟨hle, hfree, hleast⟩ := allocateNextId_spec start used
    rw [allocateIds, List.mem_cons, ih, List.mem_cons, not_or]
    generalize allocateNextId start used = id at hle hfree hleast ⊢
    rcases lt_trichotomy x id with hlt | rfl | hlt
    · constructor
      · rintro (heq | ⟨hle', _⟩) <;> omega
      · rintro ⟨hx, hnot, _⟩
        exact absurd (hleast x hx hlt) hnot
    · have hnone : unusedBelow start used x = 0 := by
        rw [unusedBelow_eq, Finset.card_eq_zero, Finset.filter_eq_empty_iff]
        intro y hy
        rw [Finset.mem_Ico] at hy
        exact not_not.2 (hleast y hy.1 hy.2)
      simp [hle, hfree, hnone]
    · have hone : unusedBelow start used x = unusedBelow (id + 1) (id :: used) x + 1 := by
        have hinsert : ((Finset.Ico start x).filter fun y => y ∉ used) =
            insert id ((Finset.Ico (id + 1) x).filter fun y => y ∉ id :: used) := by
          ext y
          simp only [Finset.mem_filter, Finset.mem_Ico, Finset.mem_insert, List.mem_cons, not_or]
          constructor
          · rintro ⟨⟨hy, hyx⟩, hnot⟩
            by_cases hlt' : y < id
            · exact absurd (hleast y hy hlt') hnot
            · by_cases heq : y = id
              · exact .inl heq
              · exact .inr ⟨⟨by omega, hyx⟩, heq, hnot⟩
          · rintro (rfl | ⟨⟨hy, hyx⟩, _, hnot⟩)
            · exact ⟨⟨hle, hlt⟩, hfree⟩
            · exact ⟨⟨by omega, hyx⟩, hnot⟩
        rw [unusedBelow_eq, hinsert, Finset.card_insert_of_notMem, unusedBelow_eq]
        simp
      rw [hone]
      constructor
      · rintro (heq | ⟨_, hnot, hcount⟩)
        · omega
        · exact ⟨by omega, hnot.2, by omega⟩
      · rintro ⟨_, hnot, hcount⟩
        exact .inr ⟨by omega, ⟨by omega, hnot⟩, by omega⟩

theorem nodup_allocateIds : (allocateIds n start used).Nodup := by
  induction n generalizing start used with
  | zero => exact List.nodup_nil
  | succ n ih =>
    rw [allocateIds]
    refine List.nodup_cons.2 ⟨fun hmem => ?_, ih⟩
    have hle := (mem_allocateIds.1 hmem).1
    omega

theorem allocateIds_lt_iff {bound : ℤ} (h : start ≤ bound) :
    (∀ id ∈ allocateIds n start used, id < bound) ↔ n ≤ unusedBelow start used bound := by
  constructor
  · intro hall
    by_contra hlt
    -- the first unused id from the bound on would be taken
    obtain ⟨hle, hfree, hleast⟩ := allocateNextId_spec bound used
    generalize allocateNextId bound used = id at hle hfree hleast
    have hsame : unusedBelow start used id = unusedBelow start used bound := by
      rw [unusedBelow_eq, unusedBelow_eq]
      congr 1
      ext y
      simp only [Finset.mem_filter, Finset.mem_Ico]
      constructor
      · rintro ⟨⟨hy, hyid⟩, hnot⟩
        refine ⟨⟨hy, ?_⟩, hnot⟩
        by_contra hge
        exact hnot (hleast y (not_lt.1 hge) hyid)
      · rintro ⟨⟨hy, hyb⟩, hnot⟩
        exact ⟨⟨hy, by omega⟩, hnot⟩
    have hid := hall id (mem_allocateIds.2 ⟨by omega, hfree, by omega⟩)
    omega
  · intro hcount id hid
    obtain ⟨_, _, hlt⟩ := mem_allocateIds.1 hid
    by_contra hge
    have hmono : unusedBelow start used bound ≤ unusedBelow start used id :=
      unusedBelow_mono (not_lt.1 hge)
    omega

theorem createDecomposedOps_ids (op : NpuDmaMemcpyNdOp) (bds : List NdDmaPattern) (nextId : ℤ)
    (used : List ℤ) : (createDecomposedOps op bds nextId used).map NpuDmaMemcpyNdOp.id =
      allocateIds bds.length nextId used := by
  induction bds generalizing nextId used with
  | nil => rfl
  | cons subPattern bds ih =>
    rw [createDecomposedOps, List.map_cons, ih]
    rfl

theorem createDecomposedOps_metadata {op new : NpuDmaMemcpyNdOp} {bds : List NdDmaPattern}
    {nextId : ℤ} {used : List ℤ} (h : new ∈ createDecomposedOps op bds nextId used) :
    new.metadata = op.metadata := by
  induction bds generalizing nextId used with
  | nil => cases h
  | cons subPattern bds ih =>
    rw [createDecomposedOps, List.mem_cons] at h
    rcases h with rfl | h
    exacts [rfl, ih h]

/-! ## Room for a split -/

namespace MemcpyDevice

variable {D : MemcpyDevice} {op : NpuDmaMemcpyNdOp} {seq before after others new :
  List NpuDmaMemcpyNdOp} {tile : ℤ × ℤ} {bds : List NdDmaPattern}

theorem tileOf_congr {a b : NpuDmaMemcpyNdOp} (h : a.metadata = b.metadata) :
    D.tileOf a = D.tileOf b := by
  rw [tileOf, tileOf, h]

theorem tileOf_of_decomposed (h : D.decomposed op = some bds) : ∃ tile, D.tileOf op = some tile := by
  rw [decomposed] at h
  obtain ⟨pattern, _, h⟩ := Option.bind_eq_some_iff.1 h
  split_ifs at h
  obtain ⟨tile, htile, _⟩ := Option.bind_eq_some_iff.1 h
  exact ⟨tile, htile⟩

/-- The ids from a memcpy's own on that no other memcpy of its metadata uses suffice, within the
tile's and below those of the tile's other memcpys, for each of the patterns it splits into. -/
def HasRoom (D : MemcpyDevice) (others : List NpuDmaMemcpyNdOp) (op : NpuDmaMemcpyNdOp) : Prop :=
  ∀ bds tile, D.decomposed op = some bds → D.tileOf op = some tile → 1 < bds.length →
    bds.length ≤ unusedBelow op.id (usedIds others op) (D.numBDs tile) ∧
      ∀ other ∈ others, D.tileOf other = some tile → other.metadata ≠ op.metadata →
        op.id ≤ other.id → bds.length ≤ unusedBelow op.id (usedIds others op) other.id

/-- There is room for the split of memcpy number `i`. -/
def HasRoomAt (D : MemcpyDevice) (seq : List NpuDmaMemcpyNdOp) (i : ℕ) : Prop :=
  ∀ op, seq[i]? = some op → D.HasRoom (seq.take i ++ seq.drop (i + 1)) op

theorem idsDistinct_append : D.IdsDistinct (new ++ others) ↔ D.IdsDistinct new ∧
    D.IdsDistinct others ∧ ∀ a ∈ new, ∀ b ∈ others, ∀ tile, D.tileOf a = some tile →
      D.tileOf b = some tile → a.id ≠ b.id := by
  constructor
  · rintro ⟨hdistinct, hbounded⟩
    obtain ⟨hnew, hothers, hcross⟩ := List.pairwise_append.1 hdistinct
    exact ⟨⟨hnew, fun op hop => hbounded op (List.mem_append_left _ hop)⟩,
      ⟨hothers, fun op hop => hbounded op (List.mem_append_right _ hop)⟩, hcross⟩
  · rintro ⟨⟨hnew, hnewBounded⟩, ⟨hothers, hbounded⟩, hcross⟩
    refine ⟨List.pairwise_append.2 ⟨hnew, hothers, hcross⟩, fun op hop => ?_⟩
    rcases List.mem_append.1 hop with hop | hop
    exacts [hnewBounded op hop, hbounded op hop]

theorem idsDistinct_cons : D.IdsDistinct (op :: others) ↔ D.IdsDistinct [op] ∧
    D.IdsDistinct others ∧ ∀ b ∈ others, ∀ tile, D.tileOf op = some tile →
      D.tileOf b = some tile → op.id ≠ b.id := by
  rw [← List.singleton_append, idsDistinct_append]
  simp only [List.mem_singleton, forall_eq]

theorem idsDistinct_perm {seq' : List NpuDmaMemcpyNdOp} (h : seq.Perm seq') :
    D.IdsDistinct seq ↔ D.IdsDistinct seq' := by
  have hsymm : ∀ {a b : NpuDmaMemcpyNdOp}, (∀ tile, D.tileOf a = some tile →
      D.tileOf b = some tile → a.id ≠ b.id) → ∀ tile, D.tileOf b = some tile →
      D.tileOf a = some tile → b.id ≠ a.id := fun h tile hb ha => (h tile ha hb).symm
  constructor
  · rintro ⟨hdistinct, hbounded⟩
    exact ⟨(h.pairwise_iff hsymm).1 hdistinct, fun op hop => hbounded op (h.mem_iff.2 hop)⟩
  · rintro ⟨hdistinct, hbounded⟩
    exact ⟨(h.pairwise_iff hsymm).2 hdistinct, fun op hop => hbounded op (h.mem_iff.1 hop)⟩

theorem idsDistinct_middle : D.IdsDistinct (before ++ new ++ after) ↔
    D.IdsDistinct (new ++ (before ++ after)) := by
  refine idsDistinct_perm ?_
  rw [← List.append_assoc]
  exact List.perm_append_comm.append_right after

theorem idsDistinct_singleton : D.IdsDistinct [op] ↔
    ∀ tile, D.tileOf op = some tile → 0 ≤ op.id ∧ op.id < D.numBDs tile :=
  ⟨fun h => h.bounded op (List.mem_singleton_self op), fun h =>
    ⟨List.pairwise_singleton _ _, fun _ ho => List.mem_singleton.1 ho ▸ h⟩⟩

theorem not_mem_usedIds (h : D.IdsDistinct others) (htile : D.tileOf op = some tile)
    {other : NpuDmaMemcpyNdOp} (hother : other ∈ others) (ho : D.tileOf other = some tile)
    (hmeta : other.metadata ≠ op.metadata) : other.id ∉ usedIds others op := by
  intro hmem
  obtain ⟨same, hsame, hid⟩ := List.mem_map.1 hmem
  obtain ⟨hsame, heq⟩ := List.mem_filter.1 hsame
  have hsym : Std.Symm fun a b : NpuDmaMemcpyNdOp => ∀ tile, D.tileOf a = some tile →
      D.tileOf b = some tile → a.id ≠ b.id := ⟨fun a b h tile hb ha => (h tile ha hb).symm⟩
  have hne : same ≠ other := fun he => hmeta (he ▸ of_decide_eq_true heq)
  have hts : D.tileOf same = some tile := (tileOf_congr (of_decide_eq_true heq)).trans htile
  exact h.distinct.forall hsame hother hne tile hts ho hid

theorem idsDistinct_created (h : D.IdsDistinct (op :: others)) (htile : D.tileOf op = some tile) :
    D.IdsDistinct (createDecomposedOps op bds op.id (usedIds others op) ++ others) ↔
      bds.length ≤ unusedBelow op.id (usedIds others op) (D.numBDs tile) ∧
        ∀ other ∈ others, D.tileOf other = some tile → other.metadata ≠ op.metadata →
          op.id ≤ other.id → bds.length ≤ unusedBelow op.id (usedIds others op) other.id := by
  obtain ⟨hop, hothers, -⟩ := idsDistinct_cons.1 h
  obtain ⟨hpos, hlt⟩ := idsDistinct_singleton.1 hop tile htile
  have hids := createDecomposedOps_ids op bds op.id (usedIds others op)
  have htiles : ∀ a ∈ createDecomposedOps op bds op.id (usedIds others op),
      D.tileOf a = some tile := fun a ha =>
    (tileOf_congr (createDecomposedOps_metadata ha)).trans htile
  have hmem : ∀ id, id ∈ allocateIds bds.length op.id (usedIds others op) ↔
      ∃ a ∈ createDecomposedOps op bds op.id (usedIds others op), a.id = id := fun id => by
    rw [← hids, List.mem_map]
  rw [idsDistinct_append, ← allocateIds_lt_iff hlt.le]
  constructor
  · rintro ⟨hnew, -, hcross⟩
    refine ⟨fun id hid => ?_, fun other hother ho hmeta hle => ?_⟩
    · obtain ⟨a, ha, rfl⟩ := (hmem id).1 hid
      exact (hnew.bounded a ha tile (htiles a ha)).2
    · by_contra hcount
      obtain ⟨a, ha, hid⟩ := (hmem other.id).1 (mem_allocateIds.2
        ⟨hle, not_mem_usedIds hothers htile hother ho hmeta, not_le.1 hcount⟩)
      exact hcross a ha other hother tile (htiles a ha) ho hid
  · rintro ⟨hfits, happart⟩
    refine ⟨⟨?_, fun a ha t ht => ?_⟩, hothers, fun a ha other hother t hta hto hid => ?_⟩
    · have hnodup : (allocateIds bds.length op.id (usedIds others op)).Nodup := nodup_allocateIds
      rw [← hids, List.Nodup, List.pairwise_map] at hnodup
      exact hnodup.imp fun hne _ _ _ => hne
    · have hid := (hmem a.id).2 ⟨a, ha, rfl⟩
      rw [htiles a ha, Option.some.injEq] at ht
      exact ⟨hpos.trans (mem_allocateIds.1 hid).1, ht ▸ hfits a.id hid⟩
    · rw [htiles a ha, Option.some.injEq] at hta
      subst hta
      obtain ⟨hle, hnot, hcount⟩ := mem_allocateIds.1 ((hmem a.id).2 ⟨a, ha, rfl⟩)
      rw [hid] at hle hnot hcount
      by_cases hmeta : other.metadata = op.metadata
      · exact hnot (List.mem_map.2 ⟨other, List.mem_filter.2 ⟨hother,
          decide_eq_true hmeta⟩, rfl⟩)
      · exact absurd (happart other hother hto hmeta hle) (not_le.2 hcount)

/-- **One split** keeps the ids distinct exactly if there is room for it. -/
theorem decomposeMemcpy_idsDistinct_iff (h : D.IdsDistinct (op :: others)) :
    D.IdsDistinct (D.decomposeMemcpy others op ++ others) ↔ D.HasRoom others op := by
  rw [decomposeMemcpy]
  split
  · rename_i hnone
    refine iff_of_true h fun bds tile hbds => ?_
    rw [hnone] at hbds
    cases hbds
  · rename_i subPattern hone
    refine iff_of_true ?_ fun bds tile hbds _ hlen => ?_
    · obtain ⟨hop, hothers, hcross⟩ := idsDistinct_cons.1 h
      exact idsDistinct_cons.2 ⟨idsDistinct_singleton.2
        fun tile htile => hop.bounded op (List.mem_singleton_self op) tile htile,
        hothers, hcross⟩
    · rw [hone, Option.some.injEq] at hbds
      rw [← hbds, List.length_singleton] at hlen
      omega
  · rename_i bds hmany hbds
    obtain ⟨tile, htile⟩ := tileOf_of_decomposed hbds
    rw [idsDistinct_created h htile]
    constructor
    · intro hroom bds' tile' hbds' htile' _
      rw [hbds, Option.some.injEq] at hbds'
      rw [htile, Option.some.injEq] at htile'
      rw [← hbds', ← htile']
      exact hroom
    · intro hroom
      match bds with
      | [] => exact ⟨Nat.zero_le _, fun _ _ _ _ _ => Nat.zero_le _⟩
      | [subPattern] => exact absurd rfl (hmany subPattern)
      | _ :: _ :: _ => exact hroom _ tile hbds htile (by simp)

theorem splitAt_idsDistinct_iff (h : D.IdsDistinct seq) (i : ℕ) :
    D.IdsDistinct (D.splitAt seq i) ↔ D.HasRoomAt seq i := by
  rw [splitAt]
  cases hi : seq[i]? with
  | none =>
    refine iff_of_true h fun op hop => ?_
    rw [hi] at hop
    cases hop
  | some op =>
    have hseq : seq = seq.take i ++ [op] ++ seq.drop (i + 1) := by
      obtain ⟨hlt, rfl⟩ := List.getElem?_eq_some_iff.1 hi
      rw [List.append_assoc, List.singleton_append, ← List.drop_eq_getElem_cons,
        List.take_append_drop]
    have hmoved : D.IdsDistinct (op :: (seq.take i ++ seq.drop (i + 1))) := by
      rw [hseq] at h
      exact idsDistinct_middle.1 h
    show D.IdsDistinct (_ ++ D.decomposeMemcpy _ op ++ _) ↔ _
    rw [idsDistinct_middle, decomposeMemcpy_idsDistinct_iff hmoved, HasRoomAt]
    refine ⟨fun hroom op' hop' => ?_, fun hroom => hroom op hi⟩
    rw [hi, Option.some.injEq] at hop'
    rwa [← hop']

theorem decomposeMemcpys_eq_splits (before todo : List NpuDmaMemcpyNdOp) :
    ∃ is, D.decomposeMemcpys before todo = D.splits (before ++ todo) is := by
  induction todo generalizing before with
  | nil => exact ⟨[], (List.append_nil before).symm⟩
  | cons op after ih =>
    obtain ⟨is, his⟩ := ih (before ++ D.decomposeMemcpy (before ++ after) op)
    refine ⟨before.length :: is, ?_⟩
    have hstep : D.splitAt (before ++ op :: after) before.length =
        before ++ D.decomposeMemcpy (before ++ after) op ++ after := by
      simp [splitAt]
    rw [decomposeMemcpys, his, splits, splits, List.foldl_cons, hstep]

/-! ## A run of splits -/

theorem splits_concat (seq : List NpuDmaMemcpyNdOp) (is : List ℕ) (i : ℕ) :
    D.splits seq (is ++ [i]) = D.splitAt (D.splits seq is) i := List.foldl_concat ..

/-- **A run of splits keeps the ids on each tile distinct and within its descriptors** as long as
there is room for each split where it is made, and no longer. -/
theorem splits_idsDistinct_iff (D : MemcpyDevice) {seq : List NpuDmaMemcpyNdOp}
    (h : D.IdsDistinct seq) (is : List ℕ) :
    (∀ done, done <+: is → D.IdsDistinct (D.splits seq done)) ↔
      ∀ done i, done ++ [i] <+: is → D.HasRoomAt (D.splits seq done) i := by
  constructor
  · intro hall done i hprefix
    have hdone : done <+: is := (List.prefix_append done [i]).trans hprefix
    rw [← splitAt_idsDistinct_iff (hall done hdone), ← splits_concat]
    exact hall _ hprefix
  · intro hroom done
    induction done using List.reverseRecOn with
    | nil => exact fun _ => h
    | append_singleton done i ih =>
      intro hprefix
      have hdone : done <+: is := (List.prefix_append done [i]).trans hprefix
      rw [splits_concat, splitAt_idsDistinct_iff (ih hdone)]
      exact hroom done i hprefix

end MemcpyDevice

/-! ## Two channels of one tile -/

def twoChannels : MemcpyDevice where
  tm := sampleTarget.tm
  allocation symbol := if symbol = "in0" ∨ symbol = "in1" then some (0, 0) else none

def rereadMemcpy (id : ℤ) : NpuDmaMemcpyNdOp :=
  { pattern := some (rereadPattern 0), elemWidth := 32, metadata := ⟨"in0", []⟩, id := id }

/-- A memcpy of the other channel that stays as it is. -/
def plainMemcpy (id : ℤ) : NpuDmaMemcpyNdOp :=
  { pattern := some (.ofDims [⟨0, 1024, 1⟩] 0), elemWidth := 32, metadata := ⟨"in1", []⟩, id := id }

theorem decomposed_rereadMemcpy (id : ℤ) : twoChannels.decomposed (rereadMemcpy id) =
    some [(halvedPattern 0).toDims.toVectors, (halvedPattern 0).toDims.toVectors] := by
  have hdims : sampleTarget.decomposeNdDmaPattern (rereadPattern 0).toDims.toVectors =
      some [(halvedPattern 0).toDims.toVectors, (halvedPattern 0).toDims.toVectors] := by
    have hfits : ¬ sampleTarget.contiguousAndFits (rereadPattern 0) = true := Bool.false_ne_true
    have hpasses : ¬ sampleTarget.patternPassesVerification (rereadPattern 0) = true :=
      Bool.false_ne_true
    have hmerged : ¬ sampleTarget.patternPassesVerification
        (sampleTarget.mergeContiguousDims (rereadPattern 0)) = true := Bool.false_ne_true
    have hscattered : ¬ isContiguousTransfer (rereadPattern 0).sizes (rereadPattern 0).strides =
        true := Bool.false_ne_true
    have hpattern : Nd4Pattern.ofDims (rereadPattern 0).toDims.dims 0 = rereadPattern 0 := rfl
    show (sampleTarget.decomposeDims (rereadPattern 0).toDims).map _ = _
    rw [DmaTarget.decomposeDims, if_neg (by decide)]
    show Option.map _ (if _ then _ else _) = _
    rw [show (rereadPattern 0).toDims.baseOffset = 0 from rfl, hpattern, if_neg hfits,
      if_neg hpasses]
    simp only
    rw [if_neg hmerged, DmaTarget.decompose4d, if_neg hscattered, decomposeRecursive_reread]
    rfl
  have hpattern : (rereadMemcpy id).pattern = some (rereadPattern 0) := rfl
  have htile : twoChannels.tileOf (rereadMemcpy id) = some (0, 0) := rfl
  have hruntime : ¬ (rereadMemcpy id).runtimeLength = true := Bool.false_ne_true
  have hscattered : ¬ isContiguousTransfer (rereadPattern 0).sizes (rereadPattern 0).strides =
      true := Bool.false_ne_true
  have hpasses : ¬ sampleTarget.patternPassesVerification (rereadPattern 0) = true :=
    Bool.false_ne_true
  simp only [MemcpyDevice.decomposed, hpattern, htile, Option.bind_eq_bind, Option.bind_some]
  rw [if_neg hruntime, if_neg hscattered]
  show (if sampleTarget.patternPassesVerification (rereadPattern 0) = true then none else
    Option.bind (sampleTarget.decomposeNdDmaPattern (rereadPattern 0).toDims.toVectors) _) = _
  rw [if_neg hpasses, hdims]
  rfl

theorem idsDistinct_pair {a b : ℤ} (hab : a ≠ b) (ha : 0 ≤ a ∧ a < 16) (hb : 0 ≤ b ∧ b < 16) :
    twoChannels.IdsDistinct [rereadMemcpy a, plainMemcpy b] where
  distinct := List.pairwise_pair.2 fun _ _ _ => hab
  bounded op hop tile htile := by
    have htile : tile = (0, 0) := by
      simp only [List.mem_cons, List.not_mem_nil, or_false] at hop
      rcases hop with rfl | rfl <;> exact (Option.some.inj htile).symm
    rw [htile]
    simp only [List.mem_cons, List.not_mem_nil, or_false] at hop
    rcases hop with rfl | rfl
    exacts [ha, hb]

/-- The second piece takes the descriptor of the other channel's memcpy. -/
theorem decomposeMemcpys_alias : ¬∀ (D : MemcpyDevice) (seq : List NpuDmaMemcpyNdOp),
    D.IdsDistinct seq → D.IdsDistinct (D.decomposeMemcpys [] seq) := by
  intro h
  have hall := h twoChannels [rereadMemcpy 0, plainMemcpy 1]
    (idsDistinct_pair (by decide) (by decide) (by decide))
  have hplain : twoChannels.decomposed (plainMemcpy 1) = none := rfl
  rw [MemcpyDevice.decomposeMemcpys, MemcpyDevice.decomposeMemcpys, MemcpyDevice.decomposeMemcpys,
    MemcpyDevice.decomposeMemcpy, decomposed_rereadMemcpy, MemcpyDevice.decomposeMemcpy, hplain]
    at hall
  have hpair := List.pairwise_iff_getElem.mp hall.distinct 1 2 (by decide) (by decide) (by decide)
  exact hpair (0, 0) rfl rfl rfl

/-- With the other channel's memcpy on descriptor 5, there is room. -/
theorem splits_idsDistinct_apart :
    twoChannels.IdsDistinct (twoChannels.splits [rereadMemcpy 0, plainMemcpy 5] [0]) := by
  refine (MemcpyDevice.splits_idsDistinct_iff twoChannels
    (idsDistinct_pair (by decide) (by decide) (by decide)) [0]).mpr ?_ [0] List.prefix_rfl
  intro done i hprefix op hop bds tile hbds htile _
  obtain ⟨rfl, rfl⟩ : done = [] ∧ i = 0 := by
    obtain ⟨rest, hrest⟩ := hprefix
    rw [List.append_assoc] at hrest
    cases done with
    | nil => exact ⟨rfl, (List.cons.inj hrest).1⟩
    | cons d ds => simp at hrest
  obtain rfl : rereadMemcpy 0 = op := Option.some.inj hop
  obtain rfl : (0, 0) = tile := Option.some.inj htile
  rw [decomposed_rereadMemcpy, Option.some.injEq] at hbds
  subst hbds
  refine ⟨by decide, fun other hother _ _ _ => ?_⟩
  obtain rfl : other = plainMemcpy 5 := List.mem_singleton.mp hother
  decide

end MlirAie.Dma
