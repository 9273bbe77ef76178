import MlirAie.Placer.Connects
import MlirAie.Placer.Moves

/-!
# Runs of the annealing placer

What the placer keeps up to date, compared with what it would compute from scratch.

* `Event`, `Reaches`: samples, moves that are accepted or rejected, and periodic recomputations;
* `Recomputed`, `Restored`: the state is that of its placement, and that before a rejected move;
* **`Reaches.recomputed`**: both in every run that meets the condition.
-/

namespace MlirAie.Placer

namespace Design

variable {d : Design} {s : State} {placement : Placement} {boxes : Boxes} {moves : List Move}

/-! ## Boxes under several moves -/

def BoxesTracked (d : Design) (placement : Placement) (boxes : Boxes) : Prop :=
  ∀ netIdx < d.nets.length, boxes netIdx = netBox placement (d.net netIdx)

/-- A net that names the first of the moved tiles several times keeps its box as that is moved. -/
def RestoresNet (placement : Placement) (moves : List Move) (net : NetInfo) : Prop :=
  ∀ m, moves.find? (fun m => m.1 ∈ net.endpoints) = some m →
    net.endpoints.count m.1 = 1 ∨ movedBox placement m.1 m.2 net = netBox placement net

theorem isInt_posAt (hint : ∀ op pos, placement op = some pos → pos.IsInt) (op : ℕ) :
    (posAt placement op).IsInt := by
  unfold posAt
  cases hpos : placement op with
  | none => exact ⟨by decide, by decide⟩
  | some pos => exact hint op pos hpos

theorem isInt_update {tile : ℕ} {pos : TileID}
    (hint : ∀ op pos, placement op = some pos → pos.IsInt) (hpos : pos.IsInt) :
    ∀ op pos', Function.update placement tile (some pos) op = some pos' → pos'.IsInt := by
  intro op pos' h
  by_cases hop : op = tile
  · subst hop
    rw [Function.update_self, Option.some.injEq] at h
    rwa [← h]
  · rw [Function.update_of_ne hop] at h
    exact hint op pos' h

theorem BoxesTracked.evaluateMove (h : d.BoxesTracked placement boxes) (tile : ℕ) {pos : TileID}
    (hint : ∀ op pos, placement op = some pos → pos.IsInt) (hpos : pos.IsInt) :
    d.BoxesTracked (Function.update placement tile (some pos))
      (d.evaluateMove placement tile pos boxes).boxes := by
  intro netIdx hlt
  rw [d.evaluateMove_boxes placement tile pos boxes hlt]
  by_cases hmem : tile ∈ (d.net netIdx).endpoints
  · rw [if_pos hmem, movedBox_eq (d.endpoints_ne_nil hlt) fun ep _ =>
      isInt_posAt (isInt_update hint hpos) ep]
  · rw [if_neg hmem, netBox_update_of_not_mem hmem, h netIdx hlt]

/-- **The boxes follow the moves.** -/
theorem BoxesTracked.evaluateMoves (h : d.BoxesTracked placement boxes)
    (hint : ∀ op pos, placement op = some pos → pos.IsInt) (hmoves : ∀ m ∈ moves, m.2.IsInt) :
    d.BoxesTracked (place moves placement) (d.evaluateMoves placement boxes moves).boxes := by
  induction moves generalizing placement boxes with
  | nil => exact h
  | cons m moves ih =>
    have hpos := hmoves m List.mem_cons_self
    exact ih (h.evaluateMove m.1 hint hpos) (isInt_update hint hpos)
      fun m' hm' => hmoves m' (List.mem_cons_of_mem _ hm')

theorem evaluateMoves_delta (placement : Placement) (boxes : Boxes) (moves : List Move) :
    d.computeTotalHPWL (d.evaluateMoves placement boxes moves).boxes =
      d.computeTotalHPWL boxes + (d.evaluateMoves placement boxes moves).hpwlDelta := by
  induction moves generalizing placement boxes with
  | nil => exact (add_zero _).symm
  | cons m moves ih =>
    show d.computeTotalHPWL (d.evaluateMoves _ _ moves).boxes = _
    rw [ih, d.evaluateMove_delta, add_assoc]
    rfl

/-- **Taking the moves back restores the box of a net** where the condition is met. -/
theorem revert_evaluateMoves {netIdx : ℕ} (hlt : netIdx < d.nets.length)
    (hbox : boxes netIdx = netBox placement (d.net netIdx))
    (hrestores : RestoresNet placement moves (d.net netIdx)) :
    (d.evaluateMoves placement boxes moves).allBackups.reverse.foldl
      (fun boxes backups => revertMove backups boxes)
      (d.evaluateMoves placement boxes moves).boxes netIdx = boxes netIdx := by
  induction moves generalizing placement boxes with
  | nil => rfl
  | cons m moves ih =>
    show (List.reverse (_ :: _)).foldl _ (d.evaluateMoves _ _ moves).boxes netIdx = _
    rw [List.reverse_cons, List.foldl_concat, d.revertMove_evaluateMove placement m.1 m.2 _ _ hlt]
    by_cases hmem : m.1 ∈ (d.net netIdx).endpoints
    · rw [if_neg (not_not.2 hmem)]
      have hfind : (m :: moves).find? (fun m => m.1 ∈ (d.net netIdx).endpoints) = some m :=
        List.find?_cons_of_pos (by simpa using hmem)
      split_ifs with hone
      · rfl
      · rw [hbox]
        exact (hrestores m hfind).resolve_left hone
    · rw [if_pos hmem]
      have hbox' : (d.evaluateMove placement m.1 m.2 boxes).boxes netIdx = boxes netIdx := by
        rw [d.evaluateMove_boxes _ _ _ _ hlt, if_neg hmem]
      rw [← hbox']
      refine ih ?_ fun m' hm' => ?_
      · rw [hbox', hbox, netBox_update_of_not_mem hmem]
      · have hfind : (m :: moves).find? (fun m => m.1 ∈ (d.net netIdx).endpoints) = some m' := by
          rw [List.find?_cons_of_neg (by simpa using hmem), hm']
        refine (hrestores m' hfind).imp_right fun heq => ?_
        rw [movedBox_update_of_not_mem hmem, heq, netBox_update_of_not_mem hmem]

/-! ## Runs -/

/-- What happens to the state. -/
inductive Event
  | sample (moves : List Move)
  | tryMove (moves : List Move) (order : List ℕ) (accept : Bool)
  | recompute

def Event.apply (d : Design) : Event → State → State
  | sample moves, s => d.sampleMove moves s
  | tryMove moves order accept, s => d.tryMove moves order accept s
  | recompute, s => d.recompute s

/-- Moves are generated from draws, and the affected fifos are in the order of their set. -/
def Event.Possible (d : Design) (s : State) : Event → Prop
  | sample moves => ∃ draws, d.generateMove s draws = some moves
  | tryMove moves order _ =>
    (∃ draws, d.generateMove s draws = some moves) ∧
      d.AffectedFifos (oldPlacements s moves) order
  | recompute => True

/-- **When the source does as it means to**: a move that is taken back restores the box of each net,
and an accepted one takes each fifo away from where it is. -/
def Event.Meets (d : Design) (s : State) : Event → Prop
  | sample moves =>
    ∀ netIdx < d.nets.length, RestoresNet s.currentPlacement (moves.take 1) (d.net netIdx)
  | tryMove moves _ false =>
    ∀ netIdx < d.nets.length, RestoresNet s.currentPlacement moves (d.net netIdx)
  | tryMove _ order true => d.OneWayOrSingle s.currentPlacement order
  | recompute => True

def Steps (d : Design) (s s' : State) : Prop :=
  ∃ e : Event, e.Possible d s ∧ e.Meets d s ∧ s' = e.apply d s

def Reaches (d : Design) : State → State → Prop := Relation.ReflTransGen d.Steps

def start (d : Design) (o : d.Orders) : Option State :=
  (d.generateInitialPlacement o).toOption.map d.initializeSAState

/-- **The state is that of its placement.** -/
structure Recomputed (d : Design) (s : State) : Prop where
  boxes : ∀ netIdx < d.nets.length, NetBoundingBox.IsBox
    ((d.net netIdx).endpoints.map (posAt s.currentPlacement)) (s.boxes netIdx)
  dma : s.usage.dma = (d.initResourceTracking s.currentPlacement).dma
  memory : d.MemoryTracked s.currentPlacement s.usage
  wireCost : s.wireCost = d.computeTotalHPWL s.boxes

/-- **What a rejected move leaves.** -/
structure Restored (d : Design) (s s' : State) : Prop where
  currentPlacement : s'.currentPlacement = s.currentPlacement
  boxes : ∀ netIdx < d.nets.length, s'.boxes netIdx = s.boxes netIdx
  usage : s'.usage = s.usage
  wireCost : s'.wireCost = s.wireCost
  occupancy : ∀ pos, d.target.getTileType pos = .CoreTile →
    s'.physToLogical pos = s.physToLogical pos

/-- What every state of a run has in common. -/
structure Invariant (d : Design) (s : State) : Prop where
  recorded : d.StateRecorded s
  boxes : d.BoxesTracked s.currentPlacement s.boxes
  channels : d.ChannelsTracked s.currentPlacement s.usage
  memory : d.MemoryTracked s.currentPlacement s.usage
  wireCost : s.wireCost = d.computeTotalHPWL s.boxes

theorem Invariant.ofPlacement (h : d.Invariant s) : d.Recomputed s := by
  refine ⟨fun netIdx hlt => ?_, ?_, h.memory, h.wireCost⟩
  · rw [h.boxes netIdx hlt]
    exact netBox_isBox (d.endpoints_ne_nil hlt)
  · funext t
    rw [h.channels t, initResourceTracking_channels s.currentPlacement t]

/-! ## The start of a run -/

theorem Recorded.initBoundingBoxes {movable : List ℕ} {phys : TileID → Option ℕ}
    (h : d.Recorded movable placement phys) :
    d.Recorded movable (d.initBoundingBoxes placement).1 phys := by
  have hkeep : ∀ op pos, placement op = some pos →
      (d.initBoundingBoxes placement).1 op = some pos := fun op pos hpos => by
    show (if _ then _ else placement op) = _
    rw [if_neg (by simp [hpos]), hpos]
  refine ⟨h.lt, fun op hop => ?_, fun op pos hpos => ?_, fun op hop hcore pos hpos => ?_,
    fun pos hcore op hphys => ?_⟩
  · obtain ⟨pos, hpos, htype⟩ := h.typed op hop
    exact ⟨pos, hkeep op pos hpos, htype⟩
  · change (if _ then _ else placement op) = _ at hpos
    split_ifs at hpos with hnone
    · obtain rfl := Option.some.inj hpos
      exact ⟨by decide, by decide⟩
    · exact h.int op pos hpos
  · obtain ⟨pos', hpos', -⟩ := h.typed op hop
    rw [hkeep op pos' hpos'] at hpos
    exact h.recorded op hop hcore pos (hpos'.trans hpos)
  · obtain ⟨hcore', hpos⟩ := h.occupied pos hcore op hphys
    exact ⟨hcore', hkeep op pos hpos⟩

theorem start_invariant {o : d.Orders} (h : d.start o = some s) : d.Invariant s := by
  obtain ⟨p, hp, rfl⟩ := Option.map_eq_some_iff.1 h
  have hp' : d.generateInitialPlacement o = .ok p := by
    cases hgen : d.generateInitialPlacement o with
    | error e => rw [hgen] at hp; cases hp
    | ok p' =>
      rw [hgen] at hp
      rw [Option.some.inj hp]
  exact ⟨(generateInitialPlacement_recorded hp').initBoundingBoxes, fun _ _ => rfl,
    initResourceTracking_channels _, initResourceTracking_memory _, rfl⟩

/-! ## Each event -/

theorem Invariant.reject (h : d.Invariant s) (order : List ℕ) (hmoves : d.Proposes s moves)
    (hmeets : ∀ netIdx < d.nets.length, RestoresNet s.currentPlacement moves (d.net netIdx)) :
    d.Restored s (d.tryMove moves order false s) := by
  refine ⟨?_, fun netIdx hlt => ?_, rfl, rfl, fun pos hcore => ?_⟩
  · show place _ (d.evaluateMoves _ _ moves).placement = _
    rw [evaluateMoves_placement, (hmoves.valid h.recorded).place_old h.recorded]
  · exact revert_evaluateMoves hlt (h.boxes netIdx hlt) (hmeets netIdx hlt)
  · exact hmoves.revert_physToLogical h.recorded hcore

theorem computeTotalHPWL_congr {boxes' : Boxes}
    (h : ∀ netIdx < d.nets.length, boxes' netIdx = boxes netIdx) :
    d.computeTotalHPWL boxes' = d.computeTotalHPWL boxes :=
  Finset.sum_congr rfl fun netIdx hmem => by rw [h netIdx (Finset.mem_range.1 hmem)]

/-- The record depends on the placement and on the positions of cores. -/
theorem Recorded.congr {movable : List ℕ} {phys phys' : TileID → Option ℕ}
    (h : d.Recorded movable placement phys)
    (hphys : ∀ pos, d.target.getTileType pos = .CoreTile → phys' pos = phys pos) :
    d.Recorded movable placement phys' := by
  refine ⟨h.lt, h.typed, h.int, fun op hop hcore pos hpos => ?_, fun pos hcore op hop => ?_⟩
  · obtain ⟨pos', hpos', htype⟩ := h.typed op hop
    rw [hpos, Option.some.injEq] at hpos'
    subst hpos'
    rw [hphys pos (type_eq_core hcore htype)]
    exact h.recorded op hop hcore pos hpos
  · rw [hphys pos hcore] at hop
    exact h.occupied pos hcore op hop

theorem Invariant.of_restored {s' : State} (h : d.Invariant s) (hs' : d.Restored s s')
    (hmovable : s'.movableTiles = s.movableTiles) : d.Invariant s' := by
  refine ⟨?_, fun netIdx hlt => ?_, ?_, ?_, ?_⟩
  · unfold StateRecorded
    rw [hmovable, hs'.currentPlacement]
    exact h.recorded.congr hs'.occupancy
  · rw [hs'.boxes netIdx hlt, hs'.currentPlacement]
    exact h.boxes netIdx hlt
  · rw [hs'.currentPlacement, hs'.usage]
    exact h.channels
  · rw [hs'.currentPlacement, hs'.usage]
    exact h.memory
  · rw [hs'.wireCost, h.wireCost, computeTotalHPWL_congr hs'.boxes]

/-- An accepted move that meets the condition is followed by what is kept. -/
theorem Invariant.accept (h : d.Invariant s) {order : List ℕ} (hmoves : d.Proposes s moves)
    (horder : d.AffectedFifos (oldPlacements s moves) order)
    (hmeets : d.OneWayOrSingle s.currentPlacement order) :
    d.Invariant (d.tryMove moves order true s) := by
  have hvalid := hmoves.valid h.recorded
  have hmoved := hvalid.moved h.recorded
  refine ⟨?_, ?_, ?_, ?_, ?_⟩
  · show d.Recorded s.movableTiles (d.evaluateMoves _ _ moves).placement _
    rw [evaluateMoves_placement]
    exact hmoves.accept_recorded h.recorded
  · show d.BoxesTracked (d.evaluateMoves _ _ moves).placement _
    rw [evaluateMoves_placement]
    exact h.boxes.evaluateMoves h.recorded.int hvalid.int
  · show d.ChannelsTracked (d.evaluateMoves _ _ moves).placement
      (d.updateResources _ order (d.evaluateMoves _ _ moves).placement s.usage)
    rw [evaluateMoves_placement]
    exact updateResources_channels hmoved horder h.channels
  · show d.MemoryTracked (d.evaluateMoves _ _ moves).placement
      (d.updateResources _ order (d.evaluateMoves _ _ moves).placement s.usage)
    rw [evaluateMoves_placement]
    exact updateResources_memory hmoved horder hmeets h.memory
  · show s.wireCost + _ = d.computeTotalHPWL (d.evaluateMoves _ _ moves).boxes
    rw [evaluateMoves_delta, h.wireCost]

theorem Invariant.sample (h : d.Invariant s)
    (hmeets : ∀ netIdx < d.nets.length,
      RestoresNet s.currentPlacement (moves.take 1) (d.net netIdx)) :
    d.Restored s (d.sampleMove moves s) := by
  cases moves with
  | nil => exact ⟨rfl, fun _ _ => rfl, rfl, rfl, fun _ _ => rfl⟩
  | cons m moves =>
    refine ⟨rfl, fun netIdx hlt => ?_, rfl, rfl, fun _ _ => rfl⟩
    exact @revert_evaluateMoves d s.currentPlacement s.boxes [m] netIdx hlt (h.boxes netIdx hlt)
      (hmeets netIdx hlt)

theorem Invariant.step {s' : State} (h : d.Invariant s) (hstep : d.Steps s s') :
    d.Invariant s' := by
  obtain ⟨e, hpossible, hmeets, rfl⟩ := hstep
  cases e with
  | sample moves =>
    refine h.of_restored (h.sample hmeets) ?_
    cases moves with
    | nil => rfl
    | cons m moves => rfl
  | tryMove moves order accept =>
    obtain ⟨⟨draws, hdraws⟩, horder⟩ := hpossible
    have hmoves := generateMove_proposes hdraws
    cases accept with
    | false => exact h.of_restored (h.reject order hmoves hmeets) rfl
    | true => exact h.accept hmoves horder hmeets
  | recompute =>
    exact ⟨h.recorded, h.boxes, initResourceTracking_channels _, initResourceTracking_memory _,
      rfl⟩

/-- **What is kept up to date is what would be computed from scratch**, in every run that meets the
condition, and a rejected move that meets it leaves everything as it was. -/
theorem Reaches.recomputed {o : d.Orders} {s₀ : State} (hstart : d.start o = some s₀)
    (hrun : d.Reaches s₀ s) :
    d.Recomputed s ∧ ∀ moves order, (Event.tryMove moves order false).Possible d s →
      (Event.tryMove moves order false).Meets d s →
      d.Restored s (d.tryMove moves order false s) := by
  have hinv : d.Invariant s := by
    induction hrun with
    | refl => exact start_invariant hstart
    | tail _ hstep ih => exact ih.step hstep
  refine ⟨hinv.ofPlacement, fun moves order hpossible hmeets => ?_⟩
  obtain ⟨⟨draws, hdraws⟩, -⟩ := hpossible
  exact hinv.reject order (generateMove_proposes hdraws) hmeets

/-! ## Two designs -/

/-- A core with a fifo of its own, and one to another core. -/
def intratileDesign : Design where
  target := smallTarget
  logicalTiles := [⟨.CoreTile, none, none⟩, ⟨.CoreTile, none, none⟩]
  objectFifos :=
    [{ symName := "of1", producerTile := .logical 0, consumerTiles := [.logical 0]
       elemNumber := .all 2, elemType := ⟨16, 32⟩ },
     { symName := "of2", producerTile := .logical 0, consumerTiles := [.logical 1]
       elemNumber := .all 2, elemType := ⟨16, 32⟩ }]
  links := []
  allocates := []
  acquires := []
  allocates_nodup := List.nodup_nil
  buffers := []
  cores := []
  cascadeFlows := []
  verified := by decide
  core_isCore := fun _ h => absurd h List.not_mem_nil
  columns_lt := by decide
  rows_lt := by decide

/-- A core with a buffer, and a fifo to the cores above and below it. -/
def broadcastDesign : Design where
  target := smallTarget
  logicalTiles := [⟨.CoreTile, some 0, some 3⟩, ⟨.CoreTile, some 0, some 4⟩,
    ⟨.CoreTile, none, none⟩]
  objectFifos :=
    [{ symName := "of", producerTile := .logical 0, consumerTiles := [.logical 1, .logical 2]
       elemNumber := .all 2, elemType := ⟨16, 32⟩ }]
  links := []
  allocates := []
  acquires := []
  allocates_nodup := List.nodup_nil
  buffers := [⟨.logical 0, 1024, false⟩]
  cores := []
  cascadeFlows := []
  verified := by decide
  core_isCore := fun _ h => absurd h List.not_mem_nil
  columns_lt := by decide
  rows_lt := by decide

def intratileOrders : intratileDesign.Orders where
  collected := [0, 1]
  collected_perm := by decide
  availMem := [⟨0, 1⟩, ⟨1, 1⟩]
  availMem_perm := by decide
  availMem_sorted := by decide
  availShim := [⟨0, 0⟩, ⟨1, 0⟩]
  availShim_perm := by decide

def broadcastOrders : broadcastDesign.Orders where
  collected := [0, 1, 2]
  collected_perm := by decide
  availMem := [⟨0, 1⟩, ⟨1, 1⟩]
  availMem_perm := by decide
  availMem_sorted := by decide
  availShim := [⟨0, 0⟩, ⟨1, 0⟩]
  availShim_perm := by decide

def intratileStart : State := (intratileDesign.start intratileOrders).get (by decide)

def broadcastStart : State := (broadcastDesign.start broadcastOrders).get (by decide)

/-- The core with the fifo of its own is moved up. -/
def intratileMoves : List Move := [(0, ⟨0, 5⟩)]

def broadcastMoves : List Move := [(2, ⟨1, 5⟩)]

theorem intratile_possible (accept : Bool) :
    (Event.tryMove intratileMoves [0, 1] accept).Possible intratileDesign intratileStart := by
  refine ⟨⟨[(0, 3)], by decide⟩, by decide, fun fi => ?_⟩
  match fi with
  | 0 => decide
  | 1 => decide
  | fi + 2 =>
    refine iff_of_false (by simp) ?_
    rintro ⟨hlt, -⟩
    exact absurd hlt (by simp [intratileDesign, fifoBuffers])

theorem broadcast_possible (accept : Bool) :
    (Event.tryMove broadcastMoves [0] accept).Possible broadcastDesign broadcastStart := by
  refine ⟨⟨[(0, 7)], by decide⟩, by decide, fun fi => ?_⟩
  match fi with
  | 0 => decide
  | fi + 1 =>
    refine iff_of_false (by simp) ?_
    rintro ⟨hlt, -⟩
    exact absurd hlt (by simp [broadcastDesign, fifoBuffers])

theorem broadcast_not_tracked :
    ¬broadcastDesign.MemoryTracked
      (broadcastDesign.tryMove broadcastMoves [0] true broadcastStart).currentPlacement
      (broadcastDesign.tryMove broadcastMoves [0] true broadcastStart).usage := by
  generalize hs : broadcastDesign.tryMove broadcastMoves [0] true broadcastStart = s
  rintro ⟨choice, hvalid, -, hmem⟩
  -- only the core above can share memory with the producer now
  have htwo : broadcastDesign.twoWay s.currentPlacement (broadcastDesign.fifoBuffer 0) =
      [⟨0, ⟨0, 3⟩, 1, ⟨0, 4⟩, 0⟩] := by
    rw [← hs]
    rfl
  have hchoice := hvalid 0 (by decide) ⟨0, ⟨0, 3⟩, 1, ⟨0, 4⟩, 0⟩ (by rw [htwo]; simp)
  have hcharges : ∀ chosen : TileID, chosen = ⟨0, 3⟩ ∨ chosen = ⟨0, 4⟩ →
      chargesAt (broadcastDesign.fifoCharges s.currentPlacement (broadcastDesign.fifoBuffer 0)
        fun _ => chosen) ⟨0, 2⟩ = 0 := by
    rw [← hs]
    rintro chosen (rfl | rfl)
    · decide
    · decide
  have hcongr := @Device.fifoCharges_congr broadcastDesign.toDevice (broadcastDesign.fifoBuffer 0)
    s.currentPlacement (choice 0) (fun _ => choice 0 0) (by
      rw [htwo]
      simp)
  have hzero : s.usage.mem ⟨0, 2⟩ = 0 := by
    rw [hmem ⟨0, 2⟩]
    have hheld : broadcastDesign.heldBy s.currentPlacement ⟨0, 2⟩ = 0 := by
      rw [← hs]
      decide
    rw [hheld, zero_add]
    show ∑ fi ∈ Finset.range 1, _ = _
    rw [Finset.sum_range_one, hcongr, hcharges _ hchoice]
  rw [← hs] at hzero
  exact absurd hzero (by decide)

/-- **Two ways to drift**: a rejected move leaves the box of a net that names its tile twice where
the tile was moved, and an accepted one leaves the memory of a shared buffer behind. -/
theorem annealing_drifts :
    (intratileDesign.start intratileOrders = some intratileStart ∧
      (Event.tryMove intratileMoves [0, 1] false).Possible intratileDesign intratileStart ∧
      ¬intratileDesign.Recomputed
        (intratileDesign.tryMove intratileMoves [0, 1] false intratileStart) ∧
      ¬intratileDesign.Restored intratileStart
        (intratileDesign.tryMove intratileMoves [0, 1] false intratileStart)) ∧
    broadcastDesign.start broadcastOrders = some broadcastStart ∧
      (Event.tryMove broadcastMoves [0] true).Possible broadcastDesign broadcastStart ∧
      ¬broadcastDesign.Recomputed
        (broadcastDesign.tryMove broadcastMoves [0] true broadcastStart) := by
  refine ⟨⟨(Option.some_get _).symm, intratile_possible false, fun h => ?_, fun h => ?_⟩,
    (Option.some_get _).symm, broadcast_possible true, fun h => broadcast_not_tracked h.memory⟩
  · have hbox := (h.boxes 0 (by decide)).unique
      (netBox_isBox (intratileDesign.endpoints_ne_nil (by decide)))
    exact absurd hbox (by decide)
  · exact absurd (h.boxes 0 (by decide)) (by decide)

/-- A run that meets the condition: the core with the fifo of its own is moved, and stays. -/
theorem intratile_recomputed :
    intratileDesign.Recomputed
      (intratileDesign.tryMove intratileMoves [0, 1] true intratileStart) := by
  have hmeets : (Event.tryMove intratileMoves [0, 1] true).Meets intratileDesign intratileStart := by
    intro fi hfi htwo
    rcases List.mem_cons.mp hfi with rfl | hfi
    · rfl
    · rw [List.mem_singleton.mp hfi]
      rfl
  exact (Reaches.recomputed (Option.some_get _).symm
    (.single ⟨_, intratile_possible true, hmeets, rfl⟩)).1

end Design

end MlirAie.Placer
