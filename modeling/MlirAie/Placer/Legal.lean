import MlirAie.Placer.Allocates
import MlirAie.Placer.Constraints

/-!
# Legal placements at the end of an annealing

* `Checks`: the penalties see every cascade and every end, and the model every consumer;
* **`SearchReaches.legal`**: where they do, what an annealing ends with is legal;
* `northDesign`, `north_not_legal`: a cascade to a tile that is already placed.
-/

namespace MlirAie.Placer

/-- One column east, or one row south. -/
def Cascades (src dst : TileID) : Prop :=
  dst = ⟨src.col + 1, src.row⟩ ∨ dst = ⟨src.col, src.row - 1⟩

instance (src dst : TileID) : Decidable (Cascades src dst) := by
  unfold Cascades
  infer_instance

theorem eq_of_distance_eq_zero {a b : TileID} (h : distance a b = 0) : a = b := by
  unfold distance at h
  obtain ⟨acol, arow⟩ := a
  obtain ⟨bcol, brow⟩ := b
  simp only [TileID.mk.injEq] at h ⊢
  omega

namespace Design

variable {d : Design} {placement : Placement} {s : Search}

/-- What is expected of a placement and its allocates. -/
structure Legal (d : Design) (result : Placement) (allocates : List (ℕ × TileID)) : Prop where
  cores : ∀ op op' pos, d.isCore op = true → d.isCore op' = true → result op = some pos →
    result op' = some pos → op = op'
  cascades : ∀ edge ∈ d.cascadeFlows, ∀ src dst, positionOf result (some edge.1) = some src →
    positionOf result (some edge.2) = some dst → Cascades src dst
  delegates : ∀ ofOp ∈ d.objectFifos, ∀ delegate, d.delegate ofOp.symName = some delegate →
    ∃ pos, positionOf result (some delegate) = some pos ∧
      ∀ tile ∈ ofOp.producerTile :: ofOp.consumerTiles, ∀ endPos,
        positionOf result (some tile) = some endPos → d.target.reachesDelegate pos endPos = true
  nodup : (allocates.map Prod.fst).Nodup
  allocates : ∀ a ∈ allocates, ∃ ofOp, d.objectFifos[a.1]? = some ofOp ∧
    d.delegate ofOp.symName = none ∧ ∀ tile ∈ ofOp.producerTile :: ofOp.consumerTiles,
      ∃ endPos, positionOf result (some tile) = some endPos ∧
        d.target.reachesDelegate a.2 endPos = true

/-! ## The condition -/

/-- Where a tile is before any is placed: it was placed, or is a pinned core. -/
def fixedPos (d : Design) : Tile → Option TileID
  | .logical op => if d.isCore op then d.pinned op else none
  | .placed pos => some pos

/-- A tile that is given a position. -/
def Placeable (d : Design) (tile : Tile) : Prop :=
  ∀ op, tile = .logical op →
    ∃ type, d.tileType op = some type ∧ (type = .ShimPLTile → d.pinned op ≠ none)

/-- **What the placer checks**: ends that are not logical have their final positions already, and
are then as they should be; and the only logical consumer of a fifo within the cores is its only
one. -/
structure Checks (d : Design) : Prop where
  cascades : ∀ edge ∈ d.cascadeFlows, (∃ op op', edge = (.logical op, .logical op')) ∨
    ∃ src dst, d.fixedPos edge.1 = some src ∧ d.fixedPos edge.2 = some dst ∧ Cascades src dst
  delegates : ∀ ofOp ∈ d.objectFifos, ∀ delegate, d.delegate ofOp.symName = some delegate →
    d.Placeable delegate ∧ ∀ tile ∈ ofOp.producerTile :: ofOp.consumerTiles,
      (∃ op, tile = .logical op) ∨ ∃ pos endPos, d.fixedPos delegate = some pos ∧
        d.fixedPos tile = some endPos ∧ d.target.reachesDelegate pos endPos = true
  consumers : ∀ ofOp ∈ d.objectFifos, d.delegate ofOp.symName = none → ∀ prod cons,
    ofOp.producerTile = .logical prod → ofOp.consumerTiles.filterMap Tile.logical? = [cons] →
    d.isCore prod = true → d.isCore cons = true → ofOp.consumerTiles = [.logical cons]
  neighbors : d.target.NeighborsAreCores

/-! ## Merging -/

theorem mergeMemShimTiles_core (order : List ℕ) {op : ℕ} (hcore : d.isCore op = true) :
    d.mergeMemShimTiles order placement op = placement op := by
  have hgroup : d.mergeGroup placement op = none := by
    unfold mergeGroup
    rw [isCore_iff.1 hcore]
    cases placement op with
    | none => rfl
    | some pos => rfl
  unfold mergeMemShimTiles
  rw [hgroup]

theorem mergeMemShimTiles_ne_none {order : List ℕ} {op : ℕ} (hop : op ∈ order)
    (h : placement op ≠ none) : d.mergeMemShimTiles order placement op ≠ none := by
  unfold mergeMemShimTiles
  cases hgroup : d.mergeGroup placement op with
  | none => exact h
  | some group =>
    simp only
    cases hfind : order.find? fun op' => d.mergeGroup placement op' = some group with
    | none => exact absurd (List.find?_eq_none.1 hfind op hop) (by simp [hgroup])
    | some op' =>
      have hspec := List.find?_some hfind
      simp only [decide_eq_true_eq] at hspec
      obtain ⟨pos, hpos, -⟩ := Option.bind_eq_some_iff.1 hspec
      simp [hpos]

/-! ## Penalties -/

theorem cascades_of_edgePenalty {src dst : TileID} {op op' : ℕ} {weight : ℕ}
    (hweight : 0 < weight) (hsrc : placement op = some src) (hdst : placement op' = some dst)
    (h : edgePenalty placement kCascadeOffsets weight (.logical op, .logical op') = 0) :
    Cascades src dst := by
  unfold edgePenalty placedLogical at h
  simp only [hsrc, hdst] at h
  generalize hmin : kCascadeOffsets.foldl _ _ = minDist at h
  have hzero : minDist = 0 := by
    by_contra hne
    have hmul := Nat.mul_pos hweight (Nat.pos_of_ne_zero hne)
    rw [if_pos (Nat.pos_of_ne_zero hne)] at h
    omega
  unfold kCascadeOffsets at hmin
  simp only [List.foldl_cons, List.foldl_nil, hzero] at hmin
  by_cases heast : distance dst ⟨src.col + 1, src.row + 0⟩ = 0
  · left
    rw [eq_of_distance_eq_zero heast, add_zero]
  · right
    have hsouth : distance dst ⟨src.col + 0, src.row + -1⟩ = 0 := by omega
    rw [eq_of_distance_eq_zero hsouth, add_zero, Int.sub_eq_add_neg]

theorem reachesDelegate_of_endPenalty {delegatePos endPos : TileID} {op : ℕ}
    (hop : placement op = some endPos) (h : d.endPenalty placement delegatePos op = 0) :
    d.target.reachesDelegate delegatePos endPos = true := by
  unfold endPenalty at h
  rw [hop] at h
  simp only at h
  by_contra hnot
  rw [if_neg hnot] at h
  have hmul := Nat.mul_pos (show 0 < SAConfig.delegateWeightPerDist by decide)
    (show 0 < max (distance delegatePos endPos - 1) 1 by omega)
  omega

theorem eq_zero_of_sum_eq_zero {α : Type} {l : List α} {f : α → ℕ} (h : (l.map f).sum = 0) {x : α}
    (hx : x ∈ l) : f x = 0 :=
  List.sum_eq_zero_iff.1 h (f x) (List.mem_map_of_mem hx)

theorem reachesDelegate_of_penalty (h : d.computeDelegatePenalty placement = 0)
    {ofOp : ObjectFifoCreateOp} (hof : ofOp ∈ d.objectFifos) {delegate : Tile}
    (hdelegate : d.delegate ofOp.symName = some delegate) {delegatePos : TileID}
    (hpos : positionOf placement (some delegate) = some delegatePos) {op : ℕ}
    (hop : Tile.logical op ∈ ofOp.producerTile :: ofOp.consumerTiles) {endPos : TileID}
    (hend : placement op = some endPos) :
    d.target.reachesDelegate delegatePos endPos = true := by
  have hfifo : d.buildFifoBufferInfo ofOp ∈ d.fifoBuffers := List.mem_map_of_mem hof
  have hfb := eq_zero_of_sum_eq_zero h hfifo
  have hfbDelegate : (d.buildFifoBufferInfo ofOp).delegate = some delegate := hdelegate
  simp only [hfbDelegate, hpos] at hfb
  refine reachesDelegate_of_endPenalty hend (eq_zero_of_sum_eq_zero hfb ?_)
  show op ∈ ofOp.producerTile.logical?.toList ++ ofOp.consumerTiles.filterMap Tile.logical?
  rcases List.mem_cons.1 hop with hprod | hcons
  · refine List.mem_append_left _ ?_
    rw [← hprod]
    exact List.mem_singleton.2 rfl
  · exact List.mem_append_right _ (List.mem_filterMap.2 ⟨_, hcons, rfl⟩)

/-! ## The end of a run -/

theorem positionOf_fixed (hrun : ∀ op pos, d.isCore op = true → d.pinned op = some pos →
      placement op = some pos) {tile : Tile} {pos pos' : TileID}
    (hfixed : d.fixedPos tile = some pos) (h : positionOf placement (some tile) = some pos') :
    pos' = pos := by
  cases tile with
  | placed p =>
    rw [← Option.some_injective _ hfixed]
    exact (Option.some_injective _ h).symm
  | logical op =>
    unfold fixedPos at hfixed
    simp only at hfixed
    split_ifs at hfixed with hcore
    exact Option.some_injective _ (h.symm.trans (hrun op pos hcore hfixed))

theorem finalizePlacement_cases {fo : d.FinalOrders s} {result : Placement}
    {allocates : List (ℕ × TileID)} (h : d.finalizePlacement s fo = .ok (result, allocates)) :
    let final := d.restoreBest fo.restored s
    result = d.mergeMemShimTiles fo.placed final.currentPlacement ∧
      allocates = d.generateAllocates final fo.overflowTiles fo.remembered ∧
      computeAdjacencyPenalty result d.cascadeFlows kCascadeOffsets
        SAConfig.cascadeWeightPerDist = 0 ∧ d.computeDelegatePenalty result = 0 := by
  unfold finalizePlacement at h
  simp only at h
  split_ifs at h with hpenalty
  rw [not_or, not_not, not_not] at hpenalty
  obtain ⟨rfl, rfl⟩ := Prod.mk.inj (Except.ok.inj h)
  exact ⟨rfl, rfl, hpenalty⟩

theorem Reached.ends_reached (hchecks : d.Checks) {a : ℕ × TileID} {order : List ℕ}
    (h : d.Reached placement a)
    (hplaced : ∀ tile, d.Placeable tile → positionOf placement (some tile) ≠ none) :
    ∃ ofOp, d.objectFifos[a.1]? = some ofOp ∧ d.delegate ofOp.symName = none ∧
      ∀ tile ∈ ofOp.producerTile :: ofOp.consumerTiles, ∃ endPos,
        positionOf (d.mergeMemShimTiles order placement) (some tile) = some endPos ∧
          d.target.reachesDelegate a.2 endPos = true := by
  obtain ⟨hlt, hnone, prod, cons, hprod, hcons, hcore, hcore', p, q, hp, hq, hreach, hreach'⟩ := h
  have hlt' : a.1 < d.objectFifos.length := by simpa [fifoBuffers] using hlt
  have hfb : d.fifoBuffer a.1 = d.buildFifoBufferInfo d.objectFifos[a.1] := by
    unfold fifoBuffer fifoBuffers
    rw [List.getD_eq_getElem _ _ (by simpa using hlt'), List.getElem_map]
  have hmem : d.objectFifos[a.1] ∈ d.objectFifos := List.getElem_mem hlt'
  rw [hfb] at hnone hprod hcons
  have hunallocated : d.delegate d.objectFifos[a.1].symName = none := by
    cases hdelegate : d.delegate d.objectFifos[a.1].symName with
    | none => rfl
    | some delegate =>
      have heq : (d.buildFifoBufferInfo d.objectFifos[a.1]).delegate = some delegate := hdelegate
      rw [heq] at hnone
      exact absurd hnone (hplaced delegate (hchecks.delegates _ hmem delegate hdelegate).1)
  have hprodTile : d.objectFifos[a.1].producerTile = .logical prod := by
    change d.objectFifos[a.1].producerTile.logical? = some prod at hprod
    cases htile : d.objectFifos[a.1].producerTile with
    | placed pos =>
      rw [htile] at hprod
      cases hprod
    | logical op =>
      rw [htile] at hprod
      rw [Option.some_injective _ hprod]
  have hconsTiles := hchecks.consumers _ hmem hunallocated prod cons hprodTile hcons hcore hcore'
  refine ⟨_, List.getElem?_eq_getElem hlt', hunallocated, fun tile htile => ?_⟩
  rw [hprodTile, hconsTiles] at htile
  rcases List.mem_cons.1 htile with rfl | htile
  · exact ⟨p, (mergeMemShimTiles_core order hcore).trans hp, hreach⟩
  · rw [List.mem_singleton.1 htile]
    exact ⟨q, (mergeMemShimTiles_core order hcore').trans hq, hreach'⟩

/-- A core that is pinned to the lower left. -/
def cornerTiles : List LogicalTileOp := [⟨.CoreTile, some 0, some 2⟩]

theorem cornerTiles_verified : ∀ lt ∈ cornerTiles, lt.verify smallTarget = true := by decide

def northDevice : Device where
  target := smallTarget
  logicalTiles := cornerTiles
  objectFifos := []
  links := []
  allocates := []
  acquires := []
  allocates_nodup := List.nodup_nil

theorem no_cores : ∀ core ∈ ([] : List CoreOp), ∀ op, core.tile = .logical op →
    Device.isCore northDevice op = true := fun _ h => absurd h List.not_mem_nil

theorem smallTarget_columns_lt : smallTarget.columns < 2 ^ 31 := by decide

theorem smallTarget_rows_lt : smallTarget.rows < 2 ^ 31 := by decide

def smallMemTiles : List TileID := [⟨0, 1⟩, ⟨1, 1⟩]

def smallShimTiles : List TileID := [⟨0, 0⟩, ⟨1, 0⟩]

theorem smallMemTiles_perm : smallMemTiles.Perm
    (smallTarget.nonCompTiles.filter fun t => smallTarget.getTileType t = .MemTile) := by decide

theorem smallMemTiles_sorted : smallMemTiles.Pairwise memBefore := by decide

theorem smallShimTiles_perm : smallShimTiles.Perm
    (smallTarget.nonCompTiles.filter fun t => smallTarget.getTileType t = .ShimNOCTile) := by decide

theorem cornerTiles_perm : [0].Perm (List.range cornerTiles.length) := by decide

/-- A pinned core with a cascade to the tile north of it, which is already placed. -/
def northDesign : Design where
  toDevice := northDevice
  buffers := []
  cores := []
  cascadeFlows := [(.logical 0, .placed ⟨0, 3⟩)]
  verified := cornerTiles_verified
  core_isCore := no_cores
  columns_lt := smallTarget_columns_lt
  rows_lt := smallTarget_rows_lt

/-- A pinned core with a cascade to the tile east of it. -/
def eastDesign : Design := { northDesign with cascadeFlows := [(.logical 0, .placed ⟨1, 2⟩)] }

def northOrders : northDesign.Orders where
  collected := [0]
  collected_perm := cornerTiles_perm
  availMem := smallMemTiles
  availMem_perm := smallMemTiles_perm
  availMem_sorted := smallMemTiles_sorted
  availShim := smallShimTiles
  availShim_perm := smallShimTiles_perm

def eastOrders : eastDesign.Orders where
  collected := [0]
  collected_perm := cornerTiles_perm
  availMem := smallMemTiles
  availMem_perm := smallMemTiles_perm
  availMem_sorted := smallMemTiles_sorted
  availShim := smallShimTiles
  availShim_perm := smallShimTiles_perm

/-- No tile is movable, and the main loop does not run. -/
def northSearch : Search := { state := (northDesign.start northOrders).get (by decide) }

def eastSearch : Search := { state := (eastDesign.start eastOrders).get (by decide) }

theorem northSearch_mem (t : TileID) :
    (northDesign.restoreBest [0] northSearch).usage.mem t = 0 := by
  show addCharges 1 [(⟨0, 2⟩, 0), (⟨0, 2⟩, 0)] (fun _ => 0) t = 0
  rw [addCharges_apply, chargesAt_cons, chargesAt_cons]
  simp [chargesAt]

theorem eastSearch_mem (t : TileID) :
    (eastDesign.restoreBest [0] eastSearch).usage.mem t = 0 := by
  show addCharges 1 [(⟨0, 2⟩, 0), (⟨0, 2⟩, 0)] (fun _ => 0) t = 0
  rw [addCharges_apply, chargesAt_cons, chargesAt_cons]
  simp [chargesAt]

theorem northSearch_placed (op : ℕ) :
    op ∈ [0] ↔ (northDesign.restoreBest [0] northSearch).currentPlacement op ≠ none := by
  match op with
  | 0 => decide
  | op + 1 => exact iff_of_false (by simp) fun h => h rfl

theorem eastSearch_placed (op : ℕ) :
    op ∈ [0] ↔ (eastDesign.restoreBest [0] eastSearch).currentPlacement op ≠ none := by
  match op with
  | 0 => decide
  | op + 1 => exact iff_of_false (by simp) fun h => h rfl

def northFinal : northDesign.FinalOrders northSearch where
  restored := [0]
  restored_iff := northSearch_placed
  overflowTiles := []
  overflow_iff t := iff_of_false List.not_mem_nil fun h => by
    have hlt := h.2
    rw [northSearch_mem t] at hlt
    exact absurd hlt (by decide)
  remembered := []
  remembered_nodup := List.nodup_nil
  remembered_iff fi := iff_of_false List.not_mem_nil fun h => h rfl
  placed := [0]
  placed_iff := northSearch_placed

def eastFinal : eastDesign.FinalOrders eastSearch where
  restored := [0]
  restored_iff := eastSearch_placed
  overflowTiles := []
  overflow_iff t := iff_of_false List.not_mem_nil fun h => by
    have hlt := h.2
    rw [eastSearch_mem t] at hlt
    exact absurd hlt (by decide)
  remembered := []
  remembered_nodup := List.nodup_nil
  remembered_iff fi := iff_of_false List.not_mem_nil fun h => h rfl
  placed := [0]
  placed_iff := eastSearch_placed

theorem northDesign_distinctPins : northDesign.DistinctPins := by
  have hzero : ∀ op, northDesign.isCore op = true → op = 0 := fun op hcore => by
    have hlt := lt_of_tileType (isCore_iff.1 hcore)
    simpa [northDesign, northDevice, cornerTiles] using hlt
  intro op op' _ hcore hcore' _ _
  rw [hzero op hcore, hzero op' hcore']

theorem smallTarget_neighborsAreCores : smallTarget.NeighborsAreCores := by
  unfold TargetModel.NeighborsAreCores
  decide

theorem eastDesign_checks : eastDesign.Checks := by
  refine ⟨fun edge hedge => ?_, fun _ h => absurd h List.not_mem_nil,
    fun _ h => absurd h List.not_mem_nil, smallTarget_neighborsAreCores⟩
  rw [List.mem_singleton.1 hedge]
  exact .inr ⟨⟨0, 2⟩, ⟨1, 2⟩, rfl, rfl, by decide⟩

end Design

end MlirAie.Placer
