import MlirAie.Placer.Initial
import MlirAie.Placer.Resources

/-!
# Moves of the annealing placer

* `generateMove`: a shift or a swap of tiles, from random draws;
* **`generateMove_proposes`**: what is moved where;
* **`accept_recorded`**, **`revert_physToLogical`**: the record of core tiles after a move.
-/

namespace MlirAie.Placer

structure State where
  currentPlacement : Placement
  physToLogical : TileID → Option ℕ
  movableTiles : List ℕ
  boxes : Boxes
  usage : Usage
  /-- the wire-length part of `totalCost` -/
  wireCost : ℤ

namespace Design

variable (d : Design)

/-! ## The start -/

/-- `initBoundingBoxes`: an end without a position is put at the origin as it is looked up. -/
def initBoundingBoxes (placement : Placement) : Placement × Boxes :=
  let placement' : Placement := fun op =>
    if placement op = none ∧ ∃ net ∈ d.nets, op ∈ net.endpoints then some ⟨0, 0⟩ else placement op
  (placement', fun netIdx => netBox placement' (d.net netIdx))

def initializeSAState (s : Placing) : State :=
  let r := d.initBoundingBoxes s.currentPlacement
  { currentPlacement := r.1
    physToLogical := s.physToLogical
    movableTiles := s.movableTiles
    boxes := r.2
    usage := d.initResourceTracking r.1
    wireCost := d.computeTotalHPWL r.2 }

/-! ## Choosing a move -/

abbrev Move := ℕ × TileID

/-- Another movable tile at a position. -/
def occupant (s : State) (tile : ℕ) (pos : TileID) : Option ℕ :=
  s.movableTiles.find? fun t => t ≠ tile ∧ posAt s.currentPlacement t = pos

/-- A tile is moved to another position, where it changes places with a movable tile. -/
def proposeMove (s : State) (tile : ℕ) (targetPos : TileID) : Option (List Move) :=
  let currentPos := posAt s.currentPlacement tile
  if targetPos = currentPos then none
  else if d.satisfiesConstraints tile targetPos = false then none
  else
    match occupant s tile targetPos with
    | some other =>
      if d.tileType other ≠ d.tileType tile then none
      else if d.satisfiesConstraints other currentPos = false then none
      else some [(tile, targetPos), (other, currentPos)]
    | none =>
      if d.isLegalPosition s.physToLogical tile targetPos = false then none
      else some [(tile, targetPos)]

/-- One attempt of `generateMove`, where `draw` picks a tile and a position. -/
def attemptMove (s : State) (draw : ℕ × ℕ) : Option (List Move) :=
  let tile := s.movableTiles.getD (draw.1 % s.movableTiles.length) 0
  match d.tileType tile with
  | none => none
  | some type =>
    let candidates := if type = .CoreTile then d.target.compTiles else d.target.nonCompTiles
    let targetPos := candidates.getD (draw.2 % candidates.length) ⟨0, 0⟩
    if candidates = [] then none
    else if type ≠ .CoreTile ∧ d.target.getTileType targetPos ≠ type then none
    else d.proposeMove s tile targetPos

def generateMove (s : State) (draws : List (ℕ × ℕ)) : Option (List Move) :=
  if s.movableTiles = [] then none
  else (draws.take SAConfig.maxMoveAttempts).findSome? (d.attemptMove s)

/-! ## Trying a move -/

/-- What evaluating the moves one by one changes. -/
structure Trial where
  placement : Placement
  boxes : Boxes
  hpwlDelta : ℤ
  allBackups : List (List (ℕ × NetBoundingBox))

def evaluateMoves (placement : Placement) (boxes : Boxes) : List Move → Trial
  | [] => { placement, boxes, hpwlDelta := 0, allBackups := [] }
  | m :: moves =>
    let r := d.evaluateMove placement m.1 m.2 boxes
    let trial := evaluateMoves (Function.update placement m.1 (some m.2)) r.boxes moves
    { trial with
      hpwlDelta := r.deltaCost + trial.hpwlDelta
      allBackups := r.backups :: trial.allBackups }

def oldPlacements (s : State) (moves : List Move) : List Move :=
  moves.map fun m => (m.1, posAt s.currentPlacement m.1)

/-- The positions are taken off the record. -/
def erase (positions : List TileID) (phys : TileID → Option ℕ) : TileID → Option ℕ :=
  positions.foldl (fun phys pos => Function.update phys pos none) phys

def record (moves : List Move) (phys : TileID → Option ℕ) : TileID → Option ℕ :=
  moves.foldl (fun phys m => Function.update phys m.2 (some m.1)) phys

/-- `tryMove`, where `order` is the one of the set of the affected fifos, and `accept` is decided by
the change of the cost and a draw. -/
def tryMove (moves : List Move) (order : List ℕ) (accept : Bool) (s : State) : State :=
  let old := oldPlacements s moves
  let trial := d.evaluateMoves s.currentPlacement s.boxes moves
  let phys := record moves (erase (old.map Prod.snd) s.physToLogical)
  if accept then
    { s with
      currentPlacement := trial.placement
      physToLogical := phys
      boxes := trial.boxes
      usage := d.updateResources old order trial.placement s.usage
      wireCost := s.wireCost + trial.hpwlDelta }
  else
    { s with
      currentPlacement := place old.reverse trial.placement
      physToLogical := record old (erase (moves.map Prod.snd) phys)
      boxes := trial.allBackups.reverse.foldl (fun boxes backups => revertMove backups boxes)
        trial.boxes }

/-- A sample of `estimateInitialTemperature`: the first tile of a move is evaluated, and moved
back. -/
def sampleMove (moves : List Move) (s : State) : State :=
  match moves with
  | [] => s
  | m :: _ =>
    let r := d.evaluateMove s.currentPlacement m.1 m.2 s.boxes
    { s with boxes := revertMove r.backups r.boxes }

def recompute (s : State) : State :=
  { s with
    usage := d.initResourceTracking s.currentPlacement
    wireCost := d.computeTotalHPWL s.boxes }

/-! ## What a move is -/

variable {d} {s : State} {moves : List Move}

/-- A movable tile is put at a free position of its type, or changes places with another movable
tile of its type. -/
inductive Proposes (d : Design) (s : State) : List Move → Prop
  | shift {tile : ℕ} {pos : TileID} (hmovable : tile ∈ s.movableTiles)
      (hpos : pos ∈ d.target.positions) (hne : pos ≠ posAt s.currentPlacement tile)
      (hfree : ∀ t ∈ s.movableTiles, t ≠ tile → posAt s.currentPlacement t ≠ pos)
      (hlegal : d.isLegalPosition s.physToLogical tile pos = true) : Proposes d s [(tile, pos)]
  | swap {tile other : ℕ} (hmovable : tile ∈ s.movableTiles) (hother : other ∈ s.movableTiles)
      (hdiff : other ≠ tile)
      (hne : posAt s.currentPlacement other ≠ posAt s.currentPlacement tile)
      (htype : d.tileType other = d.tileType tile)
      (hpos : d.tileType tile = some (d.target.getTileType (posAt s.currentPlacement other)))
      (hsat : d.satisfiesConstraints tile (posAt s.currentPlacement other) = true)
      (hsat' : d.satisfiesConstraints other (posAt s.currentPlacement tile) = true) :
      Proposes d s
        [(tile, posAt s.currentPlacement other), (other, posAt s.currentPlacement tile)]

theorem occupant_spec {tile other : ℕ} {pos : TileID} (h : occupant s tile pos = some other) :
    other ∈ s.movableTiles ∧ other ≠ tile ∧ posAt s.currentPlacement other = pos := by
  have hspec := List.find?_some h
  exact ⟨List.mem_of_find?_eq_some h, by simpa using hspec⟩

theorem proposeMove_proposes {tile : ℕ} {pos : TileID} (hmovable : tile ∈ s.movableTiles)
    (hpos : pos ∈ d.target.positions) (htype : d.tileType tile = some (d.target.getTileType pos))
    (h : d.proposeMove s tile pos = some moves) : d.Proposes s moves := by
  unfold proposeMove at h
  simp only at h
  by_cases hne : pos = posAt s.currentPlacement tile
  · rw [if_pos hne] at h
    cases h
  by_cases hsat : d.satisfiesConstraints tile pos = false
  · rw [if_neg hne, if_pos hsat] at h
    cases h
  rw [if_neg hne, if_neg hsat] at h
  cases hocc : occupant s tile pos with
  | some other =>
    obtain ⟨hother, hdiff, rfl⟩ := occupant_spec hocc
    rw [hocc] at h
    simp only at h
    split_ifs at h with htype' hsat'
    obtain rfl := Option.some.inj h
    exact .swap hmovable hother hdiff hne (not_not.1 htype') htype
      (Bool.eq_true_of_not_eq_false hsat) (Bool.eq_true_of_not_eq_false hsat')
  | none =>
    rw [hocc] at h
    simp only at h
    split_ifs at h with hlegal
    obtain rfl := Option.some.inj h
    refine .shift hmovable hpos hne (fun t ht hdiff hat => ?_)
      (Bool.eq_true_of_not_eq_false hlegal)
    have hnone := List.find?_eq_none.1 hocc t ht
    exact hnone (by simp [hdiff, hat])

theorem attemptMove_proposes {draw : ℕ × ℕ} (hmovable : s.movableTiles ≠ [])
    (h : d.attemptMove s draw = some moves) : d.Proposes s moves := by
  have htile : s.movableTiles.getD (draw.1 % s.movableTiles.length) 0 ∈ s.movableTiles := by
    have hlt := Nat.mod_lt draw.1 (List.length_pos_of_ne_nil hmovable)
    rw [List.getD_eq_getElem _ _ hlt]
    exact List.getElem_mem hlt
  unfold attemptMove at h
  cases htype : d.tileType (s.movableTiles.getD (draw.1 % s.movableTiles.length) 0) with
  | none => simp only [htype, reduceCtorEq] at h
  | some type =>
    simp only [htype] at h
    by_cases hcore : type = .CoreTile
    · simp only [if_pos hcore] at h
      split_ifs at h with hcands hmatch
      have hlt := Nat.mod_lt draw.2 (List.length_pos_of_ne_nil hcands)
      rw [List.getD_eq_getElem _ _ hlt] at h
      have hmem := List.getElem_mem hlt
      refine proposeMove_proposes htile (List.mem_filter.1 hmem).1 ?_ h
      rw [htype, hcore, TargetModel.compTiles_type hmem]
    · simp only [if_neg hcore] at h
      split_ifs at h with hcands hmatch
      have hlt := Nat.mod_lt draw.2 (List.length_pos_of_ne_nil hcands)
      rw [List.getD_eq_getElem _ _ hlt] at h hmatch
      have hmem := List.getElem_mem hlt
      refine proposeMove_proposes htile (List.mem_filter.1 hmem).1 ?_ h
      rw [htype, not_not.1 (not_and.1 hmatch hcore)]

theorem generateMove_proposes {draws : List (ℕ × ℕ)} (h : d.generateMove s draws = some moves) :
    d.Proposes s moves := by
  unfold generateMove at h
  split_ifs at h with hmovable
  obtain ⟨draw, -, hdraw⟩ := List.exists_of_findSome?_eq_some h
  exact attemptMove_proposes hmovable hdraw

/-! ## What moves -/

theorem Recorded.posAt_spec {movable : List ℕ} {placement : Placement} {phys : TileID → Option ℕ}
    (h : d.Recorded movable placement phys) {tile : ℕ} (hmovable : tile ∈ movable) :
    placement tile = some (posAt placement tile) ∧
      d.tileType tile = some (d.target.getTileType (posAt placement tile)) := by
  obtain ⟨pos, hpos, htype⟩ := h.typed tile hmovable
  unfold posAt
  rw [hpos]
  exact ⟨rfl, htype⟩

abbrev StateRecorded (d : Design) (s : State) : Prop :=
  d.Recorded s.movableTiles s.currentPlacement s.physToLogical

/-- The tiles of a move are different movable tiles, which are put on tiles of their types. -/
structure ValidMoves (d : Design) (s : State) (moves : List Move) : Prop where
  nodup : (moves.map Prod.fst).Nodup
  movable : ∀ m ∈ moves, m.1 ∈ s.movableTiles
  int : ∀ m ∈ moves, m.2.IsInt
  typed : ∀ m ∈ moves, d.tileType m.1 = some (d.target.getTileType m.2)

theorem Proposes.valid (h : d.Proposes s moves) (hs : d.StateRecorded s) :
    d.ValidMoves s moves := by
  cases h with
  | shift hmovable hpos _ _ hlegal =>
    refine ⟨List.nodup_singleton _, ?_, ?_, ?_⟩
    · simpa using hmovable
    · simpa using isInt_of_mem_positions hpos
    · simpa using (isLegalPosition_iff.1 hlegal).1
  | @swap tile other hmovable hother hdiff _ htype hpos _ _ =>
    obtain ⟨hat, htile⟩ := hs.posAt_spec hmovable
    obtain ⟨hat', -⟩ := hs.posAt_spec hother
    refine ⟨?_, ?_, ?_, ?_⟩
    · simpa using Ne.symm hdiff
    · simpa using ⟨hmovable, hother⟩
    · simpa using ⟨hs.int other _ hat', hs.int tile _ hat⟩
    · simpa using ⟨hpos, htype.trans htile⟩

theorem evaluateMoves_placement (placement : Placement) (boxes : Boxes) (moves : List Move) :
    (d.evaluateMoves placement boxes moves).placement = place moves placement := by
  induction moves generalizing placement boxes with
  | nil => rfl
  | cons m moves ih => exact ih _ _

theorem map_fst_oldPlacements (s : State) (moves : List Move) :
    (oldPlacements s moves).map Prod.fst = moves.map Prod.fst := by
  unfold oldPlacements
  rw [List.map_map]
  rfl

theorem ValidMoves.moved (h : d.ValidMoves s moves) (hs : d.StateRecorded s) :
    d.Moved s.currentPlacement (place moves s.currentPlacement) (oldPlacements s moves) := by
  refine ⟨?_, ?_, ?_, ?_, ?_⟩
  · rw [map_fst_oldPlacements]
    exact h.nodup
  · intro m hm
    obtain ⟨m', hm', rfl⟩ := List.mem_map.1 hm
    exact hs.lt _ (h.movable m' hm')
  · intro m hm
    obtain ⟨m', hm', rfl⟩ := List.mem_map.1 hm
    exact (hs.posAt_spec (h.movable m' hm')).1
  · intro m hm
    obtain ⟨m', hm', rfl⟩ := List.mem_map.1 hm
    exact ⟨m'.2, @place_of_mem s.currentPlacement moves h.nodup m' hm'⟩
  · intro op hop
    rw [map_fst_oldPlacements] at hop
    exact place_of_not_mem hop

/-- **A rejected move restores the placement.** -/
theorem ValidMoves.place_old (h : d.ValidMoves s moves) (hs : d.StateRecorded s) :
    place (oldPlacements s moves).reverse (place moves s.currentPlacement) =
      s.currentPlacement := by
  have hmoved := h.moved hs
  refine Moved.place_eq (d := d) ⟨?_, ?_, ?_, ?_, ?_⟩
  · rw [List.map_reverse, List.nodup_reverse]
    exact hmoved.nodup
  · exact fun m hm => hmoved.lt m (List.mem_reverse.1 hm)
  · exact fun m hm => hmoved.old m (List.mem_reverse.1 hm)
  · exact fun m hm => hmoved.new m (List.mem_reverse.1 hm)
  · intro op hop
    rw [List.map_reverse, List.mem_reverse] at hop
    exact hmoved.same op hop

/-! ## The record after a move -/

/-- A movable core tile is alone at its position. -/
theorem Recorded.unique {movable : List ℕ} {placement : Placement} {phys : TileID → Option ℕ}
    (h : d.Recorded movable placement phys) {tile op : ℕ} {pos : TileID}
    (hmovable : tile ∈ movable) (hpos : placement tile = some pos)
    (hphys : phys pos = some op) (hcore : d.isCore op = true)
    (hop : d.tileType op = some (d.target.getTileType pos)) : op = tile := by
  obtain ⟨hat, htype⟩ := h.posAt_spec hmovable
  rw [hpos] at hat
  rw [← Option.some_injective _ hat] at htype
  have htile : d.isCore tile = true := isCore_iff.2 (by
    rw [htype, ← hop, isCore_iff.1 hcore])
  have hrec := h.recorded tile hmovable htile pos hpos
  rw [hphys] at hrec
  exact Option.some_injective _ hrec

theorem type_eq_core {tile : ℕ} {pos : TileID} (hcore : d.isCore tile = true)
    (htype : d.tileType tile = some (d.target.getTileType pos)) :
    d.target.getTileType pos = .CoreTile :=
  Option.some_injective _ (htype.symm.trans (isCore_iff.1 hcore))

theorem Recorded.free (hs : d.StateRecorded s) {tile : ℕ} {pos : TileID}
    (hmovable : tile ∈ s.movableTiles) (hne : pos ≠ posAt s.currentPlacement tile)
    (hlegal : d.isLegalPosition s.physToLogical tile pos = true)
    (hcore : d.target.getTileType pos = .CoreTile) : s.physToLogical pos = none := by
  cases hphys : s.physToLogical pos with
  | none => rfl
  | some op =>
    obtain rfl := (isLegalPosition_iff.1 hlegal).2.1 hcore op hphys
    obtain ⟨-, hat⟩ := hs.occupied pos hcore op hphys
    rw [(hs.posAt_spec hmovable).1, Option.some.injEq] at hat
    exact absurd hat.symm hne

theorem Recorded.shift {movable : List ℕ} {placement : Placement} {phys : TileID → Option ℕ}
    (h : d.Recorded movable placement phys) {tile : ℕ} {pos : TileID} (hmovable : tile ∈ movable)
    (hfree : ∀ t ∈ movable, t ≠ tile → posAt placement t ≠ pos) (hint : pos.IsInt)
    (htype : d.tileType tile = some (d.target.getTileType pos)) :
    d.Recorded movable (Function.update placement tile (some pos))
      (Function.update (Function.update phys (posAt placement tile) none) pos (some tile)) := by
  obtain ⟨hat, -⟩ := h.posAt_spec hmovable
  refine ⟨h.lt, fun op hop => ?_, fun op pos' hpos' => ?_, fun op hop hcore pos' hpos' => ?_,
    fun pos' hcore op hphys => ?_⟩
  · by_cases heq : op = tile
    · subst heq
      exact ⟨pos, Function.update_self .., htype⟩
    · simp only [Function.update_of_ne heq]
      exact h.typed op hop
  · by_cases heq : op = tile
    · subst heq
      rw [Function.update_self, Option.some.injEq] at hpos'
      rwa [← hpos']
    · rw [Function.update_of_ne heq] at hpos'
      exact h.int op pos' hpos'
  · by_cases heq : op = tile
    · subst heq
      rw [Function.update_self, Option.some.injEq] at hpos'
      rw [← hpos', Function.update_self]
    · rw [Function.update_of_ne heq] at hpos'
      obtain ⟨hat', htype'⟩ := h.posAt_spec hop
      have hpos'' : posAt placement op = pos' := Option.some_injective _ (hat'.symm.trans hpos')
      have hphys := h.recorded op hop hcore pos' hpos'
      have hold : pos' ≠ posAt placement tile := by
        rintro rfl
        exact heq (h.unique hmovable hat hphys hcore (hpos'' ▸ htype'))
      rw [Function.update_of_ne (fun hnew => hfree op hop heq (hpos''.trans hnew)),
        Function.update_of_ne hold, hphys]
  · by_cases hnew : pos' = pos
    · subst hnew
      rw [Function.update_self, Option.some.injEq] at hphys
      subst hphys
      exact ⟨isCore_iff.2 (hcore ▸ htype), Function.update_self ..⟩
    · rw [Function.update_of_ne hnew] at hphys
      by_cases hold : pos' = posAt placement tile
      · rw [hold, Function.update_self] at hphys
        cases hphys
      · rw [Function.update_of_ne hold] at hphys
        obtain ⟨hcore', hpos'⟩ := h.occupied pos' hcore op hphys
        have hne : op ≠ tile := by
          rintro rfl
          rw [hat, Option.some.injEq] at hpos'
          exact hold hpos'.symm
        exact ⟨hcore', by rw [Function.update_of_ne hne, hpos']⟩

theorem Recorded.swap {movable : List ℕ} {placement : Placement} {phys : TileID → Option ℕ}
    (h : d.Recorded movable placement phys) {tile other : ℕ} {pos pos' : TileID}
    (hmovable : tile ∈ movable) (hother : other ∈ movable) (hdiff : other ≠ tile)
    (hat : placement tile = some pos) (hat' : placement other = some pos') (hne : pos' ≠ pos)
    (htype : d.tileType tile = some (d.target.getTileType pos'))
    (htype' : d.tileType other = some (d.target.getTileType pos)) :
    d.Recorded movable
      (Function.update (Function.update placement tile (some pos')) other (some pos))
      (Function.update (Function.update
        (Function.update (Function.update phys pos none) pos' none) pos' (some tile))
        pos (some other)) := by
  have hplace : ∀ op, op ≠ tile → op ≠ other →
      Function.update (Function.update placement tile (some pos')) other (some pos) op =
        placement op := fun op h₁ h₂ => by rw [Function.update_of_ne h₂, Function.update_of_ne h₁]
  have htile : Function.update (Function.update placement tile (some pos')) other (some pos) tile =
      some pos' := by rw [Function.update_of_ne (Ne.symm hdiff), Function.update_self]
  have hrecord : ∀ q, q ≠ pos → q ≠ pos' → Function.update (Function.update
      (Function.update (Function.update phys pos none) pos' none) pos' (some tile))
        pos (some other) q = phys q := fun q h₁ h₂ => by
    rw [Function.update_of_ne h₁, Function.update_of_ne h₂, Function.update_of_ne h₂,
      Function.update_of_ne h₁]
  refine ⟨h.lt, fun op hop => ?_, fun op q hq => ?_, fun op hop hcore q hq => ?_,
    fun q hcore op hphys => ?_⟩
  · by_cases h₂ : op = other
    · subst h₂
      exact ⟨pos, Function.update_self .., htype'⟩
    by_cases h₁ : op = tile
    · subst h₁
      exact ⟨pos', htile, htype⟩
    · rw [hplace op h₁ h₂]
      exact h.typed op hop
  · by_cases h₂ : op = other
    · subst h₂
      rw [Function.update_self, Option.some.injEq] at hq
      rw [← hq]
      exact h.int tile pos hat
    by_cases h₁ : op = tile
    · subst h₁
      rw [htile, Option.some.injEq] at hq
      rw [← hq]
      exact h.int other pos' hat'
    · rw [hplace op h₁ h₂] at hq
      exact h.int op q hq
  · by_cases h₂ : op = other
    · subst h₂
      rw [Function.update_self, Option.some.injEq] at hq
      rw [← hq, Function.update_self]
    by_cases h₁ : op = tile
    · subst h₁
      rw [htile, Option.some.injEq] at hq
      rw [← hq, Function.update_of_ne hne, Function.update_self]
    · rw [hplace op h₁ h₂] at hq
      have hphys := h.recorded op hop hcore q hq
      obtain ⟨hq', htypeq⟩ := h.posAt_spec hop
      rw [hq, Option.some.injEq] at hq'
      rw [← hq'] at htypeq
      have hpos : q ≠ pos := by
        rintro rfl
        exact h₁ (h.unique hmovable hat hphys hcore htypeq)
      have hpos' : q ≠ pos' := by
        rintro rfl
        exact h₂ (h.unique hother hat' hphys hcore htypeq)
      rw [hrecord q hpos hpos', hphys]
  · by_cases hpos : q = pos
    · subst hpos
      rw [Function.update_self, Option.some.injEq] at hphys
      subst hphys
      exact ⟨isCore_iff.2 (hcore ▸ htype'), Function.update_self ..⟩
    by_cases hpos' : q = pos'
    · subst hpos'
      rw [Function.update_of_ne hpos, Function.update_self, Option.some.injEq] at hphys
      subst hphys
      exact ⟨isCore_iff.2 (hcore ▸ htype), htile⟩
    · rw [hrecord q hpos hpos'] at hphys
      obtain ⟨hcore', hq⟩ := h.occupied q hcore op hphys
      have h₁ : op ≠ tile := by
        rintro rfl
        rw [hat, Option.some.injEq] at hq
        exact hpos hq.symm
      have h₂ : op ≠ other := by
        rintro rfl
        rw [hat', Option.some.injEq] at hq
        exact hpos' hq.symm
      exact ⟨hcore', by rw [hplace op h₁ h₂, hq]⟩

/-- **The record after an accepted move.** -/
theorem Proposes.accept_recorded (h : d.Proposes s moves) (hs : d.StateRecorded s) :
    d.Recorded s.movableTiles (place moves s.currentPlacement)
      (record moves (erase ((oldPlacements s moves).map Prod.snd) s.physToLogical)) := by
  cases h with
  | shift hmovable hpos _ hfree hlegal =>
    exact hs.shift hmovable hfree (isInt_of_mem_positions hpos) (isLegalPosition_iff.1 hlegal).1
  | swap hmovable hother hdiff hne htype hpos _ _ =>
    obtain ⟨hat, htile⟩ := hs.posAt_spec hmovable
    exact hs.swap hmovable hother hdiff hat (hs.posAt_spec hother).1 hne hpos
      (htype.trans htile)

/-- **The record after a rejected move** is the one before, at the positions of cores. -/
theorem Proposes.revert_physToLogical (h : d.Proposes s moves) (hs : d.StateRecorded s)
    {pos : TileID} (hcore : d.target.getTileType pos = .CoreTile) :
    record (oldPlacements s moves) (erase (moves.map Prod.snd)
      (record moves (erase ((oldPlacements s moves).map Prod.snd) s.physToLogical))) pos =
        s.physToLogical pos := by
  have hold : ∀ tile ∈ s.movableTiles, pos = posAt s.currentPlacement tile →
      s.physToLogical pos = some tile := by
    intro tile hmovable hpos
    obtain ⟨hat, htype⟩ := hs.posAt_spec hmovable
    rw [← hpos] at hat htype
    exact hs.recorded tile hmovable (isCore_iff.2 (hcore ▸ htype)) pos hat
  cases h with
  | @shift tile new hmovable _ hne _ hlegal =>
    simp only [oldPlacements, List.map_cons, List.map_nil, erase, record, List.foldl_cons,
      List.foldl_nil]
    by_cases h₁ : pos = posAt s.currentPlacement tile
    · rw [hold tile hmovable h₁, ← h₁]
      exact Function.update_self ..
    by_cases h₂ : pos = new
    · subst h₂
      rw [hs.free hmovable hne hlegal hcore, Function.update_of_ne h₁]
      exact Function.update_self ..
    · rw [Function.update_of_ne h₁, Function.update_of_ne h₂, Function.update_of_ne h₂,
        Function.update_of_ne h₁]
  | @swap tile other hmovable hother _ hne _ _ _ _ =>
    simp only [oldPlacements, List.map_cons, List.map_nil, erase, record, List.foldl_cons,
      List.foldl_nil]
    by_cases h₂ : pos = posAt s.currentPlacement other
    · rw [hold other hother h₂, ← h₂]
      exact Function.update_self ..
    by_cases h₁ : pos = posAt s.currentPlacement tile
    · rw [hold tile hmovable h₁, Function.update_of_ne h₂, ← h₁]
      exact Function.update_self ..
    · rw [Function.update_of_ne h₂, Function.update_of_ne h₁, Function.update_of_ne h₁,
        Function.update_of_ne h₂, Function.update_of_ne h₁, Function.update_of_ne h₂,
        Function.update_of_ne h₂, Function.update_of_ne h₁]

end Design

end MlirAie.Placer
