import MlirAie.Placer.Contribution

/-!
# Which fifos are connected by DMAs

The annealing placer decides for each consumer of a fifo whether it is served by a DMA, the split
pass once for the fifo.

* `PlacedFifo`: a fifo between logical tiles, on tiles of their types;
* `PlacedFifo.Agrees`: when the two decide alike;
* **`PlacedFifo.chargesDMA_iff_requiresDMAs`**: they decide alike exactly then.
-/

namespace MlirAie.Placer

/-- A fifo between logical tiles that are placed on tiles of their types. -/
structure PlacedFifo where
  device : Device
  op : ObjectFifoCreateOp
  producer : ℕ
  consumers : List ℕ
  producerTile : op.producerTile = .logical producer
  consumerTiles : op.consumerTiles = consumers.map .logical
  pos : ℕ → TileID
  tileType : ∀ op ∈ producer :: consumers,
    device.tileType op = some (device.target.getTileType (pos op))

/-- The position of an end, logical tiles being placed by `pos`. -/
def Tile.at (pos : ℕ → TileID) : Tile → TileID
  | logical op => pos op
  | placed p => p

namespace PlacedFifo

variable (f : PlacedFifo)

def ChargesDMA (fifoIdx : ℕ) (u : Usage) : Prop :=
  (f.device.addFifoContribution (fun op => some (f.pos op)) fifoIdx
    (f.device.buildFifoBufferInfo f.op) 1 u).dma ≠ u.dma

def RequiresDMAs : Prop := f.device.requiresDMAs (Tile.at f.pos) f.op = true

/-! ## The conditions -/

/-- What both of them take for a reason to use DMAs. -/
def Forced : Prop :=
  f.op.viaDMA = true ∨ f.op.repeatCount.isSome = true ∨ f.op.consumerElemType.isSome = true

def Linked : Prop := f.device.isLinked f.op.symName = true

def Reshaped : Prop := ∃ dims ∈ f.op.dimensionsFromStreamPerConsumer, dims ≠ []

def DelegateReached (c : ℕ) : Prop := ∃ delegate, f.device.delegate f.op.symName = some delegate ∧
  f.device.delegateReachesBothEnds (f.pos f.producer) (f.pos c) (delegate.at f.pos) = true

/-- Consumer `c` is on a tile that shares memory with the producer's. -/
def Shares (c : ℕ) : Prop := f.device.target.getSharedMemory (f.pos f.producer) (f.pos c) ≠ .None

def OnCores (c : ℕ) : Prop := f.device.isCore f.producer = true ∧ f.device.isCore c = true

/-- What only the split pass takes for a reason to use DMAs. -/
def OnlySplit (c : ℕ) : Prop :=
  f.op.aieStream.isSome = true ∨ f.Reshaped ∨ f.Linked ∧ ¬f.DelegateReached c

/-- When the placer and the split pass decide alike. -/
def Agrees : Prop :=
  match f.consumers with
  | [c] =>
    -- within a tile the placer never charges
    (f.pos c = f.pos f.producer → ¬f.Forced ∧ f.op.dimensionsToStream = [] ∧ ¬f.OnlySplit c) ∧
    -- next to the producer it charges what is linked, and what does not connect core tiles
    (f.pos c ≠ f.pos f.producer → f.Shares c → ¬f.Forced → f.op.dimensionsToStream = [] →
      (f.OnlySplit c ↔ f.Linked ∨ ¬f.OnCores c))
  | cs =>
    -- the split pass uses DMAs for any fifo that has not one consumer
    ∃ c ∈ cs, f.pos c ≠ f.pos f.producer ∧
      (f.Forced ∨ f.op.dimensionsToStream ≠ [] ∨ f.Linked ∨ ¬(f.OnCores c ∧ f.Shares c))

/-! ## The placer -/

variable {f} {c : ℕ}

theorem core_pos {op : ℕ} (hop : op ∈ f.producer :: f.consumers)
    (hcore : f.device.isCore op = true) :
    f.device.target.getTileType (f.pos op) = .CoreTile := by
  have hcore := of_decide_eq_true hcore
  rw [f.tileType op hop] at hcore
  exact Option.some.inj hcore

def connection (f : PlacedFifo) (x : ℕ × ℕ) : Connection :=
  ⟨f.producer, f.pos f.producer, x.1, f.pos x.1, x.2⟩

theorem placedConnections_eq : Device.placedConnections (fun op => some (f.pos op))
    (f.device.buildFifoBufferInfo f.op) = f.consumers.zipIdx.map f.connection := by
  have hprod : (f.device.buildFifoBufferInfo f.op).producer = some f.producer := by
    show f.op.producerTile.logical? = _
    rw [f.producerTile]
    rfl
  have hcons : (f.device.buildFifoBufferInfo f.op).consumers = f.consumers := by
    show f.op.consumerTiles.filterMap Tile.logical? = _
    rw [f.consumerTiles, List.filterMap_map]
    exact List.filterMap_some
  unfold Device.placedConnections
  rw [hprod, hcons]
  simp only [Option.bind_some, Option.map_some, Option.getD_some]
  unfold Device.connections
  rw [← List.filterMap_eq_map]
  rfl

theorem forcesDMA_iff : (f.device.buildFifoBufferInfo f.op).forcesDMA = true ↔
    f.Forced ∨ f.op.dimensionsToStream ≠ [] ∨ f.Linked := by
  show (f.op.viaDMA || f.op.repeatCount.isSome || f.op.consumerElemType.isSome ||
    !f.op.dimensionsToStream.isEmpty || f.device.isLinked f.op.symName) = true ↔ _
  simp only [Forced, Linked, Bool.or_eq_true, Bool.not_eq_true', List.isEmpty_eq_false_iff]
  tauto

/-- For two core tiles, sharing memory is reaching the module of either one. -/
theorem shares_iff (hc : c ∈ f.consumers) (h : f.OnCores c) (ci : ℕ) : f.Shares c ↔
    f.device.rightShared (f.connection (c, ci)) = true ∨
      f.device.leftShared (f.connection (c, ci)) = true := by
  unfold Shares
  rw [ne_eq, TargetModel.getSharedMemory_core (core_pos List.mem_cons_self h.1)
    (core_pos (List.mem_cons_of_mem _ hc) h.2), not_and_or, Bool.not_eq_false, Bool.not_eq_false]
  exact Iff.rfl

theorem isSharedMem_iff (ci : ℕ) :
    f.device.isSharedMem (f.device.buildFifoBufferInfo f.op) (f.connection (c, ci)) = true ↔
      (f.device.buildFifoBufferInfo f.op).forcesDMA = false ∧ f.OnCores c ∧
        f.pos f.producer ≠ f.pos c ∧ (f.device.rightShared (f.connection (c, ci)) = true ∨
          f.device.leftShared (f.connection (c, ci)) = true) := by
  unfold Device.isSharedMem
  rw [Bool.and_eq_true, Bool.and_eq_true, Bool.and_eq_true, Bool.and_eq_true, Bool.not_eq_true',
    Bool.or_eq_true, decide_eq_true_iff, and_assoc, and_assoc, and_assoc]
  exact and_congr_right fun _ => and_assoc.symm

theorem usesDMA_iff (hc : c ∈ f.consumers) (ci : ℕ) :
    f.device.usesDMA (f.device.buildFifoBufferInfo f.op) (f.connection (c, ci)) = true ↔
      f.pos c ≠ f.pos f.producer ∧
        (f.Forced ∨ f.op.dimensionsToStream ≠ [] ∨ f.Linked ∨ ¬(f.OnCores c ∧ f.Shares c)) := by
  unfold Device.usesDMA
  rw [Bool.and_eq_true, Bool.not_eq_true', ← Bool.not_eq_true, isSharedMem_iff,
    ← Bool.not_eq_true, forcesDMA_iff, decide_eq_true_iff]
  constructor
  · rintro ⟨hne, hshared⟩
    refine ⟨hne.symm, ?_⟩
    by_contra hall
    obtain ⟨hforced, hdims, hlinked, hboth⟩ := by simpa only [not_or] using hall
    obtain ⟨hcores, hshares⟩ := not_not.1 hboth
    exact hshared ⟨by simp only [not_or]; exact ⟨hforced, hdims, hlinked⟩, hcores, hne,
      (shares_iff hc hcores ci).1 hshares⟩
  · rintro ⟨hne, hcause⟩
    refine ⟨hne.symm, fun ⟨hforces, hcores, _, hreach⟩ => ?_⟩
    obtain ⟨hforced, hdims, hlinked⟩ := by simpa only [not_or] using hforces
    rcases hcause with h | h | h | h
    · exact hforced h
    · exact hdims h
    · exact hlinked h
    · exact h ⟨hcores, (shares_iff hc hcores ci).2 hreach⟩

theorem chargesDMA_iff (fifoIdx : ℕ) (u : Usage) : f.ChargesDMA fifoIdx u ↔
    ∃ c ∈ f.consumers, f.pos c ≠ f.pos f.producer ∧
      (f.Forced ∨ f.op.dimensionsToStream ≠ [] ∨ f.Linked ∨ ¬(f.OnCores c ∧ f.Shares c)) := by
  unfold ChargesDMA
  rw [Device.chargesDMA_iff, placedConnections_eq]
  constructor
  · rintro ⟨conn, hconn, huse⟩
    obtain ⟨⟨c, ci⟩, hx, rfl⟩ := List.mem_map.1 hconn
    have hc : c ∈ f.consumers := List.fst_mem_of_mem_zipIdx hx
    exact ⟨c, hc, (usesDMA_iff hc ci).1 huse⟩
  · rintro ⟨c, hc, huse⟩
    obtain ⟨ci, hci, rfl⟩ := List.mem_iff_getElem.1 hc
    refine ⟨f.connection (f.consumers[ci], ci), List.mem_map.2 ⟨_, ?_, rfl⟩,
      (usesDMA_iff hc ci).2 huse⟩
    exact List.mem_zipIdx_iff_getElem?.2 (List.getElem?_eq_getElem hci)

/-! ## The split pass -/

theorem hasReachedDelegate_iff (h : f.consumers = [c]) :
    f.device.hasReachedDelegate (Tile.at f.pos) f.op = true ↔ f.DelegateReached c := by
  unfold DelegateReached Device.hasReachedDelegate
  rw [f.consumerTiles, h, f.producerTile]
  cases f.device.delegate f.op.symName with
  | none => simp
  | some delegate =>
    simp only [Option.some.injEq, exists_eq_left']
    exact Iff.rfl

theorem sharedModule_eq_none_iff (h : f.consumers = [c]) :
    f.device.sharedModule (Tile.at f.pos) f.op = .None ↔
      f.op.dimensionsToStream ≠ [] ∨ ¬f.Shares c := by
  unfold Device.sharedModule
  rw [f.consumerTiles, h, f.producerTile]
  cases hdims : f.op.dimensionsToStream with
  | nil =>
    rw [ne_eq, eq_self, not_true, false_or]
    exact not_not.symm
  | cons x l => simp

theorem sharedModule_others (h : ∀ c, f.consumers ≠ [c]) :
    f.device.sharedModule (Tile.at f.pos) f.op = .None := by
  unfold Device.sharedModule
  rw [f.consumerTiles]
  match hcons : f.consumers with
  | [] => rfl
  | [c] => exact absurd hcons (h c)
  | _ :: _ :: _ => rfl

theorem reshaped_iff :
    (f.op.dimensionsFromStreamPerConsumer.any fun dims => !dims.isEmpty) = true ↔ f.Reshaped := by
  simp [Reshaped]

theorem requiresDMAs_iff : f.RequiresDMAs ↔ f.Forced ∨ f.op.aieStream.isSome = true ∨
    f.device.sharedModule (Tile.at f.pos) f.op = .None ∨ f.Reshaped ∨
      f.Linked ∧ ¬f.device.hasReachedDelegate (Tile.at f.pos) f.op = true := by
  unfold RequiresDMAs Device.requiresDMAs Forced Linked
  rw [← reshaped_iff]
  split_ifs with hforced hnone hresh hlinked
  · simp only [Bool.or_eq_true] at hforced
    exact iff_of_true rfl (by tauto)
  · exact iff_of_true rfl (by tauto)
  · exact iff_of_true rfl (by tauto)
  · simp only [Bool.or_eq_true, not_or] at hforced
    simp [hforced, hnone, hresh, hlinked]
  · simp only [Bool.or_eq_true, not_or] at hforced
    simp [hforced, hnone, hresh, hlinked]

theorem requiresDMAs_single (h : f.consumers = [c]) : f.RequiresDMAs ↔
    f.Forced ∨ f.op.dimensionsToStream ≠ [] ∨ ¬f.Shares c ∨ f.OnlySplit c := by
  rw [requiresDMAs_iff, sharedModule_eq_none_iff h, hasReachedDelegate_iff h]
  unfold OnlySplit
  tauto

theorem requiresDMAs_others (h : ∀ c, f.consumers ≠ [c]) : f.RequiresDMAs :=
  requiresDMAs_iff.2 (Or.inr (Or.inr (Or.inl (sharedModule_others h))))

/-- **The placer and the split pass decide alike** under the conditions above, and only then. -/
theorem chargesDMA_iff_requiresDMAs (f : PlacedFifo) (fifoIdx : ℕ) (u : Usage) :
    (f.ChargesDMA fifoIdx u ↔ f.RequiresDMAs) ↔ f.Agrees := by
  rw [chargesDMA_iff]
  unfold Agrees
  match hcons : f.consumers with
  | [] =>
    have hreq : f.RequiresDMAs := requiresDMAs_others fun c => by rw [hcons]; simp
    rw [iff_true_right hreq]
  | c :: c' :: cs =>
    have hreq : f.RequiresDMAs := requiresDMAs_others fun c => by rw [hcons]; simp
    rw [iff_true_right hreq]
  | [c] =>
    rw [requiresDMAs_single hcons]
    simp only [List.mem_singleton, exists_eq_left]
    by_cases hpos : f.pos c = f.pos f.producer
    · have hshares : f.Shares c := by
        unfold Shares
        rw [hpos, TargetModel.getSharedMemory_self]
        exact fun h => by cases h
      simp only [hpos, ne_eq, not_true, false_and, false_iff, hshares, not_or, true_imp_iff,
        false_imp_iff, and_true, false_or, not_not]
    · simp only [hpos, ne_eq, not_false_iff, true_and, false_imp_iff, true_imp_iff]
      by_cases hforced : f.Forced
      · simp [hforced]
      by_cases hdims : f.op.dimensionsToStream = []
      · by_cases hshares : f.Shares c
        · simp only [hforced, hdims, hshares, not_true, not_false_iff, false_or, and_true,
            true_imp_iff]
          exact iff_comm
        · simp [hforced, hdims, hshares]
      · simp [hforced, hdims]

end PlacedFifo

/-! ## A consumer that reshapes the data -/

/-- An array of core tiles above one row of shim tiles and one of memory tiles. -/
def smallTarget : TargetModel where
  arch := .AIE2
  columns := 2
  rows := 6
  getTileType t := if t.row = 0 then .ShimNOCTile else if t.row = 1 then .MemTile else .CoreTile
  getDMACapacity t := if t.row = 1 then (6, 6) else (2, 2)
  getLocalMemorySize := 65536
  getMemTileSize := 524288
  getMemTileLoadStoreBusWidth := 128
  getComputeTileLoadStoreBusWidth := 256
  getComputeTileMaxVectorAlignBits := 256

/-- A fifo from one core to the one above it, where the consumer reads the data in another order. -/
def reshapedFifo : PlacedFifo where
  device :=
    { target := smallTarget
      logicalTiles := [⟨.CoreTile, none, none⟩, ⟨.CoreTile, none, none⟩]
      objectFifos := []
      links := []
      allocates := []
      acquires := []
      allocates_nodup := List.nodup_nil }
  op :=
    { symName := "of", producerTile := .logical 0, consumerTiles := [.logical 1]
      elemNumber := .all 2, elemType := ⟨16, 32⟩, dimensionsFromStreamPerConsumer := [[(4, 4)]] }
  producer := 0
  consumers := [1]
  producerTile := rfl
  consumerTiles := rfl
  pos op := ⟨0, op + 2⟩
  tileType := by decide

/-- The split pass connects it by DMAs, and the placer charges no channel. -/
theorem reshapedFifo_disagrees :
    ¬(reshapedFifo.ChargesDMA 0 {} ↔ reshapedFifo.RequiresDMAs) := by
  have hrequires : reshapedFifo.RequiresDMAs := by
    unfold PlacedFifo.RequiresDMAs
    decide
  have hfree : ¬reshapedFifo.ChargesDMA 0 {} := by
    rw [PlacedFifo.chargesDMA_iff]
    rintro ⟨c, hc, -, hcause⟩
    obtain rfl := List.mem_singleton.mp hc
    rcases hcause with h | h | h | h
    · rcases h with h | h | h <;> cases h
    · exact h rfl
    · cases h
    · exact h ⟨⟨by decide, by decide⟩, by unfold PlacedFifo.Shares; decide⟩
  exact fun h => hfree (h.mpr hrequires)

end MlirAie.Placer
