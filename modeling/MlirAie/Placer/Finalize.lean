import MlirAie.Placer.Annealing

/-!
# The end of an annealing

* `Search`, `SearchStep`: an annealing that keeps the best placements;
* `finalizePlacement`: the best placement with its allocates, if it is legal;
* **`SearchReaches.restored`**: what the steps of a search keep holds of what it ends with.
-/

namespace MlirAie.Placer

namespace SAConfig

def cascadeWeightPerDist : ℕ := 30
def delegateWeightPerDist : ℕ := 30

end SAConfig

def kCascadeOffsets : List (ℤ × ℤ) := [(1, 0), (0, -1)]

def TargetModel.getMemAffinityNeighbors (tm : TargetModel) (pos : TileID) : List TileID :=
  [⟨pos.col - 1, pos.row⟩, ⟨pos.col + 1, pos.row⟩, ⟨pos.col, pos.row + 1⟩,
    ⟨pos.col, pos.row - 1⟩].filter fun t =>
      (0 ≤ t.col ∧ t.col < tm.columns) ∧ (0 ≤ t.row ∧ t.row < tm.rows) ∧
        tm.isLegalMemAffinity pos t = true

/-- The tile at `pos` reaches the memory module of the delegate. -/
def TargetModel.reachesDelegate (tm : TargetModel) (delegate pos : TileID) : Bool :=
  let shared := tm.getSharedMemory delegate pos
  shared = .First || shared = .Either

def distance (a b : TileID) : ℕ := (a.col - b.col).natAbs + (a.row - b.row).natAbs

namespace Design

variable (d : Design)

/-! ## Penalties -/

/-- `currentPlacement.find`: only logical tiles are found. -/
def placedLogical (placement : Placement) : Tile → Option TileID
  | .logical op => placement op
  | .placed _ => none

def edgePenalty (placement : Placement) (validOffsets : List (ℤ × ℤ)) (weight : ℕ)
    (edge : Tile × Tile) : ℕ :=
  match placedLogical placement edge.1, placedLogical placement edge.2 with
  | some firstPos, some secondPos =>
    let minDist := validOffsets.foldl (fun minDist offset =>
      min minDist (distance secondPos ⟨firstPos.col + offset.1, firstPos.row + offset.2⟩))
      (2 ^ 31 - 1)
    if 0 < minDist then weight * minDist else 0
  | _, _ => 0

def computeAdjacencyPenalty (placement : Placement) (edges : List (Tile × Tile))
    (validOffsets : List (ℤ × ℤ)) (weight : ℕ) : ℕ :=
  (edges.map (edgePenalty placement validOffsets weight)).sum

def endPenalty (placement : Placement) (delegatePos : TileID) (op : ℕ) : ℕ :=
  match placement op with
  | none => 0
  | some endPos =>
    if d.target.reachesDelegate delegatePos endPos then 0
    else SAConfig.delegateWeightPerDist * max (distance delegatePos endPos - 1) 1

def computeDelegatePenalty (placement : Placement) : ℕ :=
  (d.fifoBuffers.map fun fb =>
    match positionOf placement fb.delegate with
    | none => 0
    | some delegatePos =>
      ((fb.producer.toList ++ fb.consumers).map (d.endPenalty placement delegatePos)).sum).sum

/-! ## Allocates -/

/-- What packing keeps: the memory in use, the fifos it has looked at, and the allocates. -/
structure Packing where
  mem : TileID → ℤ
  emitted : List ℕ := []
  allocates : List (ℕ × TileID) := []

/-- A fifo within a tile, which may be held by another one. -/
def isRelocatable (placement : Placement) (tilePos : TileID) (fb : FifoBufferInfo) : Bool :=
  match fb.producer, fb.consumers with
  | some prod, [cons] =>
    fb.delegate.isNone && placement prod = some tilePos && placement cons = some tilePos
  | _, _ => false

def relocSize (fb : FifoBufferInfo) : ℤ :=
  max fb.producerSizeBytes fb.consumerSizeBytes *
    max fb.producerDepth (fb.consumerDepths.headD fb.producerDepth)

/-- A fifo is put on the first neighbour that it fits on. -/
def packFifo (r : Packing × List (TileID × ℤ)) (fifo : ℕ × ℤ) : Packing × List (TileID × ℤ) :=
  if fifo.1 ∈ r.1.emitted then r
  else
    match r.2.find? fun nbr =>
      fifo.2 ≤ nbr.2 ∧ r.1.mem nbr.1 + fifo.2 ≤ d.target.getLocalMemorySize with
    | none => ({ r.1 with emitted := fifo.1 :: r.1.emitted }, r.2)
    | some nbr =>
      ({ mem := Function.update r.1.mem nbr.1 (r.1.mem nbr.1 + fifo.2)
         emitted := fifo.1 :: r.1.emitted
         allocates := r.1.allocates ++ [(fifo.1, nbr.1)] },
        r.2.map fun other => if other.1 = nbr.1 then (other.1, other.2 - fifo.2) else other)

/-- The fifos within an overflowing tile are put on its neighbours, the largest ones first. -/
def packTile (s : State) (r : Packing) (tilePos : TileID) : Packing :=
  let spares := (d.target.getMemAffinityNeighbors tilePos).map fun nbr =>
    (nbr, max (d.target.getLocalMemorySize - r.mem nbr) 0)
  let nbrSpares := (spares.filter fun nbr => 0 < nbr.2).insertionSort fun a b => a.2 ≥ b.2
  match s.physToLogical tilePos with
  | none => r
  | some op =>
    let fifos := (List.range d.fifoBuffers.length).filter fun fi =>
      decide (op ∈ (d.fifoBuffer fi).tiles) &&
        isRelocatable s.currentPlacement tilePos (d.fifoBuffer fi)
    let relocFifos := (fifos.map fun fi => (fi, relocSize (d.fifoBuffer fi))).insertionSort
      fun a b => a.2 ≥ b.2
    (relocFifos.foldl d.packFifo (r, nbrSpares)).1

/-- The remembered tile of a fifo between two tiles is allocated, unless it is the producer's. -/
def allocateShared (s : State) (r : Packing) (fi : ℕ) : Packing :=
  if fi ∈ r.emitted then r
  else
    match s.usage.dest fi, (d.fifoBuffer fi).producer.bind s.currentPlacement,
      (d.fifoBuffer fi).consumers.head?.bind s.currentPlacement with
    | some destTile, some prodPos, some consPos =>
      if prodPos = consPos ∨ destTile = prodPos then r
      else { r with allocates := r.allocates ++ [(fi, destTile)] }
    | _, _, _ => r

/-- `generateAllocates`, where the overflowing tiles and the remembered fifos come in the order of
their maps. -/
def generateAllocates (s : State) (overflowTiles : List TileID) (remembered : List ℕ) :
    List (ℕ × TileID) :=
  (remembered.foldl (d.allocateShared s)
    (overflowTiles.foldl (d.packTile s) { mem := s.usage.mem })).allocates

/-! ## Merging -/

/-- The column and the type of a tile that may share its position. -/
def mergeGroup (placement : Placement) (op : ℕ) : Option (ℤ × AIETileType) :=
  (placement op).bind fun pos => (d.tileType op).bind fun type =>
    if type = .CoreTile then none else some (pos.col, type)

/-- The tiles of a group are put where the first of them is, in the order of `currentPlacement`. -/
def mergeMemShimTiles (order : List ℕ) (placement : Placement) : Placement := fun op =>
  match d.mergeGroup placement op with
  | none => placement op
  | some group => (order.find? fun op' => d.mergeGroup placement op' = some group).bind placement

/-! ## The search and its end -/

/-- The annealing state with `bestPlacement`, if there is a legal one, and
`bestOverallPlacement`. -/
structure Search where
  state : State
  bestLegal : Option Placement := none
  bestOverall : Option Placement := none

/-- One step of `runSAMainLoop`: samples first, then the loop from the current placement. Whether a
placement is the best one, or the best legal one, is decided by the costs. -/
inductive SearchStep (d : Design) : Search → Search → Prop
  | sample {s : Search} {moves : List Move}
      (hmoves : ∃ draws, d.generateMove s.state draws = some moves) :
      SearchStep d s { s with state := d.sampleMove moves s.state }
  | begin {s : Search} (legal : Bool) :
      SearchStep d s
        { s with
          bestLegal := if legal then some s.state.currentPlacement else none
          bestOverall := some s.state.currentPlacement }
  | tryMove {s : Search} {moves : List Move} {order : List ℕ} (accept better legal : Bool)
      (hbegun : s.bestOverall.isSome = true)
      (hmoves : (Event.tryMove moves order accept).Possible d s.state) :
      SearchStep d s
        { state := d.tryMove moves order accept s.state
          bestLegal :=
            if accept && legal then
              some (d.tryMove moves order accept s.state).currentPlacement
            else s.bestLegal
          bestOverall :=
            if accept && better then
              some (d.tryMove moves order accept s.state).currentPlacement
            else s.bestOverall }
  | recompute {s : Search} (hbegun : s.bestOverall.isSome = true) :
      SearchStep d s { s with state := d.recompute s.state }

/-- The map from positions to tiles, filled in the order of `currentPlacement`. -/
def rebuildPhysToLogical (order : List ℕ) (placement : Placement) : TileID → Option ℕ :=
  order.foldl (fun phys op =>
    match placement op with
    | some pos => Function.update phys pos (some op)
    | none => phys) fun _ => none

def restoreBest (order : List ℕ) (s : Search) : State :=
  match s.bestOverall with
  | none => s.state
  | some overall =>
    let placement := s.bestLegal.getD overall
    { s.state with
      currentPlacement := placement
      physToLogical := rebuildPhysToLogical order placement
      usage := d.initResourceTracking placement }

/-- The orders in which the maps are walked at the end. -/
structure FinalOrders (d : Design) (s : Search) where
  restored : List ℕ
  restored_iff : ∀ op, op ∈ restored ↔ (d.restoreBest restored s).currentPlacement op ≠ none
  overflowTiles : List TileID
  overflow_iff : ∀ t, t ∈ overflowTiles ↔ d.target.getTileType t = .CoreTile ∧
    d.target.getLocalMemorySize < (d.restoreBest restored s).usage.mem t
  remembered : List ℕ
  remembered_nodup : remembered.Nodup
  remembered_iff : ∀ fi, fi ∈ remembered ↔ (d.restoreBest restored s).usage.dest fi ≠ none
  placed : List ℕ
  placed_iff : ∀ op, op ∈ placed ↔ (d.restoreBest restored s).currentPlacement op ≠ none

/-- `finalizePlacement`: the placement and the allocates, or the error. -/
def finalizePlacement (s : Search) (o : d.FinalOrders s) :
    Except String (Placement × List (ℕ × TileID)) :=
  let final := d.restoreBest o.restored s
  let allocates := d.generateAllocates final o.overflowTiles o.remembered
  let result := d.mergeMemShimTiles o.placed final.currentPlacement
  let finalCascade := computeAdjacencyPenalty result d.cascadeFlows kCascadeOffsets
    SAConfig.cascadeWeightPerDist
  let finalDelegate := d.computeDelegatePenalty result
  if finalCascade ≠ 0 ∨ finalDelegate ≠ 0 then
    .error ("SA placer failed to find a legal placement (cascade penalty=" ++
      toString finalCascade ++ ", delegate penalty=" ++ toString finalDelegate ++
      "); try increasing --sa-effort")
  else .ok (result, allocates)

/-! ## Runs of the search -/

/-- Runs of the search, from the initial placement. -/
def SearchReaches (o : d.Orders) (s : Search) : Prop :=
  ∃ s₀, d.start o = some s₀ ∧ Relation.ReflTransGen d.SearchStep { state := s₀ } s

/-- The steps of the search keep what is said of a state. -/
structure Preserves (I : State → Prop) : Prop where
  tryMove : ∀ s moves order accept, I s → d.Proposes s moves → I (d.tryMove moves order accept s)
  sampleMove : ∀ s moves, I s → I (d.sampleMove moves s)
  recompute : ∀ s, I s → I (d.recompute s)

/-- It is said of the state, and of the placements that are kept. -/
structure Keeps (I : State → Prop) (s : Search) : Prop where
  state : I s.state
  bestLegal : ∀ p, s.bestLegal = some p → ∃ s', I s' ∧ s'.currentPlacement = p
  bestOverall : ∀ p, s.bestOverall = some p → ∃ s', I s' ∧ s'.currentPlacement = p
  fresh : s.bestOverall = none →
    s.state.usage = d.initResourceTracking s.state.currentPlacement

variable {d} {I : State → Prop}

theorem start_cases {o : d.Orders} {s : State} (h : d.start o = some s) :
    ∃ p, d.generateInitialPlacement o = .ok p ∧ s = d.initializeSAState p := by
  obtain ⟨p, hp, rfl⟩ := Option.map_eq_some_iff.1 h
  refine ⟨p, ?_, rfl⟩
  cases hgen : d.generateInitialPlacement o with
  | error e =>
    rw [hgen] at hp
    cases hp
  | ok p' =>
    rw [hgen] at hp
    rw [Option.some.inj hp]

theorem Preserves.step (hI : d.Preserves I) {s s' : Search} (h : d.Keeps I s)
    (hstep : d.SearchStep s s') : d.Keeps I s' := by
  cases hstep with
  | @sample moves _ =>
    refine ⟨hI.sampleMove _ moves h.state, h.bestLegal, h.bestOverall, fun hnone => ?_⟩
    cases moves with
    | nil => exact h.fresh hnone
    | cons m moves => exact h.fresh hnone
  | begin legal =>
    refine ⟨h.state, fun p hp => ?_, fun p hp => ?_, fun hnone => absurd hnone (by simp)⟩
    · simp only at hp
      split_ifs at hp
      exact ⟨_, h.state, Option.some.inj hp⟩
    · exact ⟨_, h.state, Option.some.inj hp⟩
  | @tryMove moves order accept better legal hbegun hmoves =>
    obtain ⟨⟨draws, hdraws⟩, -⟩ := hmoves
    have hstate := hI.tryMove _ moves order accept h.state (generateMove_proposes hdraws)
    refine ⟨hstate, fun p hp => ?_, fun p hp => ?_, fun hnone => ?_⟩
    · simp only at hp
      split_ifs at hp
      · exact ⟨_, hstate, Option.some.inj hp⟩
      · exact h.bestLegal p hp
    · simp only at hp
      split_ifs at hp
      · exact ⟨_, hstate, Option.some.inj hp⟩
      · exact h.bestOverall p hp
    · simp only at hnone
      split_ifs at hnone
      rw [hnone] at hbegun
      cases hbegun
  | recompute _ => exact ⟨hI.recompute _ h.state, h.bestLegal, h.bestOverall, fun _ => rfl⟩

/-- **What is restored at the end** of a run is the placement of a state of which it is said what
the steps keep, with the use of that placement. -/
theorem SearchReaches.restored (hI : d.Preserves I) {o : d.Orders} {s : Search}
    (hstart : ∀ s₀, d.start o = some s₀ → I s₀) (h : d.SearchReaches o s) (order : List ℕ) :
    (∃ s', I s' ∧ s'.currentPlacement = (d.restoreBest order s).currentPlacement) ∧
      (d.restoreBest order s).usage =
        d.initResourceTracking (d.restoreBest order s).currentPlacement := by
  obtain ⟨s₀, hs₀, hrun⟩ := h
  have hkeeps : d.Keeps I s := by
    induction hrun with
    | refl =>
      refine ⟨hstart s₀ hs₀, fun _ h => (nomatch h), fun _ h => (nomatch h), fun _ => ?_⟩
      obtain ⟨p, -, rfl⟩ := start_cases hs₀
      rfl
    | tail _ hstep ih => exact hI.step ih hstep
  unfold restoreBest
  cases hbest : s.bestOverall with
  | none => exact ⟨⟨s.state, hkeeps.state, rfl⟩, hkeeps.fresh hbest⟩
  | some overall =>
    refine ⟨?_, rfl⟩
    cases hlegal : s.bestLegal with
    | none => exact hkeeps.bestOverall overall hbest
    | some p => exact hkeeps.bestLegal p hlegal

end Design

end MlirAie.Placer
