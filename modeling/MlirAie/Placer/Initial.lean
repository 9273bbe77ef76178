import MlirAie.Placer.Boxes

/-!
# The initial placement of the annealing placer

* `computeTileMemoryWeight`, `Orders`: what the tiles and the positions are ordered by;
* `isLegalPosition`: whether a tile may be at a position;
* **`generateInitialPlacement_recorded`**: movable tiles are on tiles of their types, and each core tile
  is recorded as the one at its position.
-/

namespace MlirAie.Placer

namespace Design

variable (d : Design)

/-! ## Weights and orders -/

/-- What a fifo adds to the weight of one of its tiles. -/
def fifoWeight (fb : FifoBufferInfo) (tile : ℕ) : ℤ :=
  match decide (fb.producer = some tile), fb.consumers.findIdx? (· = tile) with
  | true, some ci =>
    max fb.producerSizeBytes fb.consumerSizeBytes *
      max fb.producerDepth (fb.consumerDepths.getD ci 0)
  | true, none => fb.producerSizeBytes * fb.producerDepth
  | false, some ci => fb.consumerSizeBytes * fb.consumerDepths.getD ci 0
  | false, none => 0

def computeTileMemoryWeight (tile : ℕ) : ℤ :=
  d.staticBufferSize tile + d.stackSize tile +
    (d.fifoBuffers.map fun fb => fifoWeight fb tile).sum

/-- `byMemWeightDesc`: heavier tiles first, and the earlier one of equal tiles. -/
def byMemWeightDesc (a b : ℕ) : Prop :=
  let wa := d.computeTileMemoryWeight a
  let wb := d.computeTileMemoryWeight b
  if wa ≠ wb then wa > wb else a ≤ b

instance : DecidableRel d.byMemWeightDesc := fun _ _ => by
  unfold byMemWeightDesc
  infer_instance

/-- The checkerboard order of the positions of core tiles. -/
def compBefore (a b : TileID) : Prop :=
  let phaseA := (a.col + a.row) % 2
  let phaseB := (b.col + b.row) % 2
  if phaseA ≠ phaseB then phaseA < phaseB
  else if a.row ≠ b.row then a.row < b.row
  else a.col ≤ b.col

instance : DecidableRel compBefore := fun _ _ => by
  unfold compBefore
  infer_instance

/-- The order of the positions of memory tiles: even columns first. -/
def memBefore (a b : TileID) : Prop :=
  let phaseA := a.col % 2
  let phaseB := b.col % 2
  if phaseA ≠ phaseB then phaseA < phaseB else a.col ≤ b.col

instance : DecidableRel memBefore := fun _ _ => by
  unfold memBefore
  infer_instance

/-- What the placer goes by that the design does not say: the logical tiles as
`collectOperations` orders them, the memory tiles of a column in any order, and the shuffled shim
tiles. -/
structure Orders where
  collected : List ℕ
  collected_perm : collected.Perm (List.range d.logicalTiles.length)
  availMem : List TileID
  availMem_perm :
    availMem.Perm (d.target.nonCompTiles.filter fun t => d.target.getTileType t = .MemTile)
  availMem_sorted : availMem.Pairwise memBefore
  availShim : List TileID
  availShim_perm :
    availShim.Perm (d.target.nonCompTiles.filter fun t => d.target.getTileType t = .ShimNOCTile)

/-! ## Legal positions -/

/-- The coordinates that a tile states are kept. -/
def satisfiesConstraints (op : ℕ) (pos : TileID) : Bool :=
  d.logicalTiles[op]?.all (·.satisfiesConstraints pos)

/-- The position of a tile that states both of its coordinates. -/
def pinned (op : ℕ) : Option TileID :=
  d.logicalTiles[op]?.bind fun lt => lt.col.bind fun col => lt.row.map fun row => ⟨col, row⟩

def isLegalPosition (physToLogical : TileID → Option ℕ) (op : ℕ) (pos : TileID) : Bool :=
  match d.tileType op with
  | none => false
  | some needed =>
    if needed ≠ d.target.getTileType pos then false
    else if needed = .CoreTile && (physToLogical pos).any (· ≠ op) then false
    else d.satisfiesConstraints op pos

/-! ## Placing -/

structure Placing where
  currentPlacement : Placement := fun _ => none
  physToLogical : TileID → Option ℕ := fun _ => none
  movableTiles : List ℕ := []

def noTile : String := "no available physical tile for placement"

def placePinned (s : Placing) (op : ℕ) : Placing :=
  match d.pinned op with
  | some pos =>
    { s with
      currentPlacement := Function.update s.currentPlacement op (some pos)
      physToLogical := Function.update s.physToLogical pos (some op) }
  | none => s

/-- The positions that no pinned tile of the type takes. -/
def unclaimed (collected : List ℕ) (type : AIETileType) (avail : List TileID) : List TileID :=
  avail.filter fun t => !collected.any fun op => d.tileType op = some type && d.pinned op = some t

/-- The first legal position, and the other ones with the foremost of them in its place. -/
def takeLegal (legal : TileID → Bool) : List TileID → Option (TileID × List TileID)
  | [] => none
  | pos :: avail =>
    if legal pos then some (pos, avail)
    else (avail.findIdx? legal).map fun i => (avail.getD i pos, avail.set i pos)

def placeCores : List ℕ → List TileID → Placing → Except (ℕ × String) Placing
  | [], _, s => .ok s
  | op :: ops, avail, s =>
    match takeLegal (d.isLegalPosition s.physToLogical op) avail with
    | none => .error (op, noTile)
    | some (pos, rest) =>
      placeCores ops rest
        { currentPlacement := Function.update s.currentPlacement op (some pos)
          physToLogical := Function.update s.physToLogical pos (some op)
          movableTiles := s.movableTiles ++ [op] }

def placeInTurn (legal : ℕ → TileID → Bool) (avail : List TileID) :
    List (ℕ × ℕ) → Placing → Except (ℕ × String) Placing
  | [], s => .ok s
  | (op, idx) :: ops, s =>
    let pos := avail.getD (idx % avail.length) ⟨0, 0⟩
    if avail = [] ∨ legal op pos = false then .error (op, noTile)
    else placeInTurn legal avail ops
      { s with
        currentPlacement := Function.update s.currentPlacement op (some pos)
        movableTiles := s.movableTiles ++ [op] }

/-- The tiles of a type that are not pinned. -/
def unpinned (o : d.Orders) (type : AIETileType) : List ℕ :=
  o.collected.filter fun op => d.tileType op = some type && (d.pinned op).isNone

def generateInitialPlacement (o : d.Orders) : Except (ℕ × String) Placing := do
  let s := o.collected.foldl d.placePinned {}
  let availComp := d.unclaimed o.collected .CoreTile (d.target.compTiles.insertionSort compBefore)
  let availMem := d.unclaimed o.collected .MemTile o.availMem
  let availShim := d.unclaimed o.collected .ShimNOCTile o.availShim
  let s ← d.placeCores ((d.unpinned o .CoreTile).insertionSort d.byMemWeightDesc) availComp s
  let s ← placeInTurn (fun _ _ => true) availMem
    ((d.unpinned o .MemTile).insertionSort d.byMemWeightDesc).zipIdx s
  placeInTurn (d.isLegalPosition s.physToLogical) availShim (d.unpinned o .ShimNOCTile).zipIdx s

variable {d} {phys : TileID → Option ℕ} {op : ℕ} {pos : TileID}

/-! ## One function after the other -/

theorem isLegalPosition_iff :
    d.isLegalPosition phys op pos = true ↔
      d.tileType op = some (d.target.getTileType pos) ∧
        (d.target.getTileType pos = .CoreTile → ∀ op', phys pos = some op' → op' = op) ∧
        d.satisfiesConstraints op pos = true := by
  unfold isLegalPosition
  cases htype : d.tileType op with
  | none => simp
  | some needed =>
    by_cases hneeded : needed = d.target.getTileType pos
    · subst hneeded
      cases hphys : phys pos with
      | none => simp
      | some op' =>
        by_cases hcore : d.target.getTileType pos = .CoreTile
        · by_cases hop : op' = op
          · simp [hcore, hop]
          · simp [hcore, hop]
        · simp [hcore]
    · simp [hneeded]

theorem takeLegal_spec {legal : TileID → Bool} {avail rest : List TileID}
    (h : takeLegal legal avail = some (pos, rest)) :
    (legal pos = true ∧ pos ∈ avail) ∧ ∀ t ∈ rest, t ∈ avail := by
  unfold takeLegal at h
  cases avail with
  | nil => cases h
  | cons a avail =>
    simp only at h
    by_cases ha : legal a = true
    · rw [if_pos ha, Option.some.injEq, Prod.mk.injEq] at h
      obtain ⟨rfl, rfl⟩ := h
      exact ⟨⟨ha, List.mem_cons_self⟩, fun t ht => List.mem_cons_of_mem _ ht⟩
    · rw [if_neg ha] at h
      obtain ⟨i, hi, h⟩ := Option.map_eq_some_iff.1 h
      obtain ⟨hlt, hlegal, -⟩ := List.findIdx?_eq_some_iff_getElem.1 hi
      obtain ⟨rfl, rfl⟩ := Prod.mk.inj h
      rw [List.getD_eq_getElem _ _ hlt]
      refine ⟨⟨hlegal, List.mem_cons_of_mem _ (List.getElem_mem hlt)⟩, fun t ht => ?_⟩
      rcases List.mem_or_eq_of_mem_set ht with ht | rfl
      · exact List.mem_cons_of_mem _ ht
      · exact List.mem_cons_self

/-- A pinned tile is on the array, on a tile of its type. -/
theorem pinned_spec (h : d.pinned op = some pos) :
    d.tileType op = some (d.target.getTileType pos) ∧ pos.IsInt := by
  unfold pinned at h
  obtain ⟨lt, hlt, h⟩ := Option.bind_eq_some_iff.1 h
  obtain ⟨col, hcol, h⟩ := Option.bind_eq_some_iff.1 h
  obtain ⟨row, hrow, rfl⟩ := Option.map_eq_some_iff.1 h
  have hverify := d.verified lt (List.mem_of_getElem? hlt)
  unfold LogicalTileOp.verify at hverify
  simp only [hcol, hrow, Option.all_some, Bool.and_eq_true, decide_eq_true_eq] at hverify
  obtain ⟨⟨⟨⟨hcol0, hcol'⟩, hrow0, hrow'⟩, -⟩, htype⟩ := hverify
  have hcols := d.columns_lt
  have hrows := d.rows_lt
  refine ⟨?_, ⟨?_, ?_⟩, ?_, ?_⟩
  · unfold Device.tileType
    rw [hlt, htype]
    rfl
  · show -2 ^ 31 ≤ col
    omega
  · show col < 2 ^ 31
    omega
  · show -2 ^ 31 ≤ row
    omega
  · show row < 2 ^ 31
    omega

theorem isInt_of_mem_positions (h : pos ∈ d.target.positions) : pos.IsInt := by
  obtain ⟨⟨hcol, hcol'⟩, hrow, hrow'⟩ := TargetModel.mem_positions h
  have hcols := d.columns_lt
  have hrows := d.rows_lt
  exact ⟨⟨by omega, by omega⟩, by omega, by omega⟩

/-! ## The record of core tiles -/

/-- **The record of core tiles**: movable tiles are on tiles of their types, the movable core tiles
are recorded at their positions, and what is recorded at the position of a core is there. -/
structure Recorded (d : Design) (movable : List ℕ) (placement : Placement)
    (phys : TileID → Option ℕ) : Prop where
  lt : ∀ op ∈ movable, op < d.logicalTiles.length
  typed : ∀ op ∈ movable, ∃ pos, placement op = some pos ∧
    d.tileType op = some (d.target.getTileType pos)
  int : ∀ op pos, placement op = some pos → pos.IsInt
  recorded : ∀ op ∈ movable, d.isCore op = true →
    ∀ pos, placement op = some pos → phys pos = some op
  occupied : ∀ pos, d.target.getTileType pos = .CoreTile → ∀ op, phys pos = some op →
    d.isCore op = true ∧ placement op = some pos

theorem isCore_iff : d.isCore op = true ↔ d.tileType op = some .CoreTile := by
  simp [Device.isCore]

theorem lt_of_tileType {type : AIETileType} (h : d.tileType op = some type) :
    op < d.logicalTiles.length := by
  obtain ⟨lt, hlt, -⟩ := Option.map_eq_some_iff.1 h
  exact (List.getElem?_eq_some_iff.1 hlt).1

theorem foldl_placePinned (ops : List ℕ) (s : Placing) (hmovable : s.movableTiles = [])
    (hplaced : ∀ op pos, s.currentPlacement op = some pos → d.pinned op = some pos)
    (hphys : ∀ pos op, s.physToLogical pos = some op →
      d.pinned op = some pos ∧ s.currentPlacement op = some pos) :
    let s' := ops.foldl d.placePinned s
    d.Recorded s'.movableTiles s'.currentPlacement s'.physToLogical ∧ s'.movableTiles = [] ∧
      ∀ op pos, s'.currentPlacement op = some pos → d.pinned op = some pos := by
  induction ops generalizing s with
  | nil =>
    refine ⟨⟨?_, ?_, ?_, ?_, ?_⟩, hmovable, hplaced⟩
    · simp [hmovable]
    · simp [hmovable]
    · exact fun op pos h => (pinned_spec (hplaced op pos h)).2
    · simp [hmovable]
    · intro pos hcore op h
      obtain ⟨hpin, hpos⟩ := hphys pos op h
      exact ⟨isCore_iff.2 (hcore ▸ (pinned_spec hpin).1), hpos⟩
  | cons op ops ih =>
    refine ih (d.placePinned s op) ?_ ?_ ?_
    · unfold placePinned
      split
      · exact hmovable
      · exact hmovable
    · unfold placePinned
      cases hpin : d.pinned op with
      | none => exact hplaced
      | some pos =>
        intro op' pos' h
        simp only at h
        by_cases hop : op' = op
        · subst hop
          rw [Function.update_self] at h
          rwa [hpin]
        · rw [Function.update_of_ne hop] at h
          exact hplaced op' pos' h
    · unfold placePinned
      cases hpin : d.pinned op with
      | none => exact hphys
      | some pos =>
        intro pos' op' h
        simp only at h
        by_cases hpos : pos' = pos
        · subst hpos
          rw [Function.update_self, Option.some.injEq] at h
          subst h
          exact ⟨hpin, Function.update_self ..⟩
        · rw [Function.update_of_ne hpos] at h
          obtain ⟨hpin', hplaced'⟩ := hphys pos' op' h
          have hop : op' ≠ op := by
            rintro rfl
            rw [hpin, Option.some.injEq] at hpin'
            exact hpos hpin'.symm
          exact ⟨hpin', (Function.update_of_ne hop ..).trans hplaced'⟩

theorem Recorded.place {movable : List ℕ} {placement : Placement}
    (h : d.Recorded movable placement phys) (hcore : d.isCore op = false)
    (htype : d.tileType op = some (d.target.getTileType pos)) (hint : pos.IsInt) :
    d.Recorded (movable ++ [op]) (Function.update placement op (some pos)) phys := by
  have hother : ∀ op', d.isCore op' = true →
      Function.update placement op (some pos) op' = placement op' := by
    intro op' hcore'
    refine Function.update_of_ne ?_ ..
    rintro rfl
    rw [hcore] at hcore'
    cases hcore'
  refine ⟨?_, ?_, ?_, ?_, ?_⟩
  · intro op' hop'
    rcases List.mem_append.1 hop' with hop' | hop'
    · exact h.lt op' hop'
    · rw [List.mem_singleton.1 hop']
      exact lt_of_tileType htype
  · intro op' hop'
    by_cases heq : op' = op
    · subst heq
      exact ⟨pos, Function.update_self .., htype⟩
    · rcases List.mem_append.1 hop' with hop' | hop'
      · simp only [Function.update_of_ne heq]
        exact h.typed op' hop'
      · exact absurd (List.mem_singleton.1 hop') heq
  · intro op' pos' hpos'
    by_cases heq : op' = op
    · subst heq
      rw [Function.update_self, Option.some.injEq] at hpos'
      rwa [← hpos']
    · rw [Function.update_of_ne heq] at hpos'
      exact h.int op' pos' hpos'
  · intro op' hop' hcore' pos' hpos'
    rw [hother op' hcore'] at hpos'
    rcases List.mem_append.1 hop' with hop' | hop'
    · exact h.recorded op' hop' hcore' pos' hpos'
    · rw [List.mem_singleton.1 hop', hcore] at hcore'
      cases hcore'
  · intro pos' htype' op' hphys
    obtain ⟨hcore', hpos'⟩ := h.occupied pos' htype' op' hphys
    exact ⟨hcore', by rw [hother op' hcore', hpos']⟩

theorem Recorded.placeCore {movable : List ℕ} {placement : Placement}
    (h : d.Recorded movable placement phys) (hnone : placement op = none)
    (hcore : d.isCore op = true) (hlegal : d.isLegalPosition phys op pos = true)
    (hint : pos.IsInt) :
    d.Recorded (movable ++ [op]) (Function.update placement op (some pos))
      (Function.update phys pos (some op)) := by
  obtain ⟨htype, hfree, -⟩ := isLegalPosition_iff.1 hlegal
  have hpos : d.target.getTileType pos = .CoreTile :=
    (Option.some_injective _ (htype.symm.trans (isCore_iff.1 hcore)))
  refine ⟨?_, ?_, ?_, ?_, ?_⟩
  · intro op' hop'
    rcases List.mem_append.1 hop' with hop' | hop'
    · exact h.lt op' hop'
    · rw [List.mem_singleton.1 hop']
      exact lt_of_tileType htype
  · intro op' hop'
    by_cases heq : op' = op
    · subst heq
      exact ⟨pos, Function.update_self .., htype⟩
    · rcases List.mem_append.1 hop' with hop' | hop'
      · simp only [Function.update_of_ne heq]
        exact h.typed op' hop'
      · exact absurd (List.mem_singleton.1 hop') heq
  · intro op' pos' hpos'
    by_cases heq : op' = op
    · subst heq
      rw [Function.update_self, Option.some.injEq] at hpos'
      rwa [← hpos']
    · rw [Function.update_of_ne heq] at hpos'
      exact h.int op' pos' hpos'
  · intro op' hop' hcore' pos' hpos'
    by_cases heq : op' = op
    · subst heq
      rw [Function.update_self, Option.some.injEq] at hpos'
      rw [← hpos', Function.update_self]
    · rw [Function.update_of_ne heq] at hpos'
      rcases List.mem_append.1 hop' with hop' | hop'
      · have hphys := h.recorded op' hop' hcore' pos' hpos'
        have hne : pos' ≠ pos := by
          rintro rfl
          exact heq (hfree hpos op' hphys)
        rw [Function.update_of_ne hne, hphys]
      · exact absurd (List.mem_singleton.1 hop') heq
  · intro pos' htype' op' hphys
    by_cases heq : pos' = pos
    · subst heq
      rw [Function.update_self, Option.some.injEq] at hphys
      subst hphys
      exact ⟨hcore, Function.update_self ..⟩
    · rw [Function.update_of_ne heq] at hphys
      obtain ⟨hcore', hpos'⟩ := h.occupied pos' htype' op' hphys
      have hne : op' ≠ op := by
        rintro rfl
        rw [hnone] at hpos'
        cases hpos'
      exact ⟨hcore', by rw [Function.update_of_ne hne, hpos']⟩

/-! ## The loops -/

theorem placeCores_recorded (ops : List ℕ) (hnodup : ops.Nodup)
    (hcore : ∀ op ∈ ops, d.isCore op = true) (avail : List TileID)
    (havail : ∀ pos ∈ avail, pos.IsInt) (s s' : Placing)
    (hs : d.Recorded s.movableTiles s.currentPlacement s.physToLogical)
    (hnone : ∀ op ∈ ops, s.currentPlacement op = none)
    (h : d.placeCores ops avail s = .ok s') :
    d.Recorded s'.movableTiles s'.currentPlacement s'.physToLogical := by
  induction ops generalizing avail s with
  | nil =>
    obtain rfl := Except.ok.inj h
    exact hs
  | cons op ops ih =>
    rw [List.nodup_cons] at hnodup
    unfold placeCores at h
    cases htake : takeLegal (d.isLegalPosition s.physToLogical op) avail with
    | none =>
      rw [htake] at h
      cases h
    | some r =>
      obtain ⟨pos, rest⟩ := r
      rw [htake] at h
      obtain ⟨⟨hlegal, hpos⟩, hrest⟩ := takeLegal_spec htake
      refine ih hnodup.2 (fun op' hop' => hcore op' (List.mem_cons_of_mem _ hop')) rest
        (fun t ht => havail t (hrest t ht)) _ ?_ ?_ h
      · exact hs.placeCore (hnone op List.mem_cons_self) (hcore op List.mem_cons_self) hlegal
          (havail pos hpos)
      · intro op' hop'
        have hne : op' ≠ op := by
          rintro rfl
          exact hnodup.1 hop'
        exact (Function.update_of_ne hne ..).trans (hnone op' (List.mem_cons_of_mem _ hop'))

theorem placeInTurn_recorded {legal : ℕ → TileID → Bool} {type : AIETileType}
    (htype : type ≠ .CoreTile) {avail : List TileID}
    (havail : ∀ pos ∈ avail, pos.IsInt ∧ d.target.getTileType pos = type) (ops : List (ℕ × ℕ))
    (hops : ∀ x ∈ ops, d.tileType x.1 = some type) (s s' : Placing)
    (hs : d.Recorded s.movableTiles s.currentPlacement s.physToLogical)
    (h : placeInTurn legal avail ops s = .ok s') :
    d.Recorded s'.movableTiles s'.currentPlacement s'.physToLogical := by
  induction ops generalizing s with
  | nil =>
    obtain rfl := Except.ok.inj h
    exact hs
  | cons x ops ih =>
    obtain ⟨op, idx⟩ := x
    unfold placeInTurn at h
    simp only at h
    split_ifs at h with hbad
    rw [not_or] at hbad
    refine ih (fun x hx => hops x (List.mem_cons_of_mem _ hx)) _ ?_ h
    have hlt : idx % avail.length < avail.length :=
      Nat.mod_lt _ (List.length_pos_of_ne_nil hbad.1)
    rw [List.getD_eq_getElem _ _ hlt]
    obtain ⟨hint, hpos⟩ := havail _ (List.getElem_mem hlt)
    have hop : d.tileType op = some type := hops (op, idx) List.mem_cons_self
    have hnot : d.isCore op = false := by
      rw [Bool.eq_false_iff]
      intro hcore
      rw [isCore_iff.1 hcore] at hop
      exact htype (Option.some_injective _ hop).symm
    exact hs.place hnot (hop.trans (by rw [hpos])) hint

theorem mem_unpinned {o : d.Orders} {type : AIETileType} (h : op ∈ d.unpinned o type) :
    d.tileType op = some type ∧ d.pinned op = none := by
  simpa using (List.mem_filter.1 h).2

theorem unpinned_nodup (o : d.Orders) (type : AIETileType) : (d.unpinned o type).Nodup :=
  (o.collected_perm.nodup_iff.2 List.nodup_range).filter _

theorem isInt_of_mem_nonCompTiles {type : AIETileType} {avail : List TileID}
    (hperm : avail.Perm (d.target.nonCompTiles.filter fun t => d.target.getTileType t = type))
    {collected : List ℕ} {t : TileID} (h : t ∈ d.unclaimed collected type avail) :
    t.IsInt ∧ d.target.getTileType t = type := by
  have hmem := hperm.mem_iff.1 (List.mem_filter.1 h).1
  obtain ⟨hmem, htype⟩ := List.mem_filter.1 hmem
  exact ⟨isInt_of_mem_positions (List.mem_filter.1 hmem).1, by simpa using htype⟩

theorem generateInitialPlacement_cases {o : d.Orders} {s : Placing}
    (h : d.generateInitialPlacement o = .ok s) :
    ∃ s₁ s₂,
      d.placeCores ((d.unpinned o .CoreTile).insertionSort d.byMemWeightDesc)
        (d.unclaimed o.collected .CoreTile (d.target.compTiles.insertionSort compBefore))
        (o.collected.foldl d.placePinned {}) = .ok s₁ ∧
      placeInTurn (fun _ _ => true) (d.unclaimed o.collected .MemTile o.availMem)
        ((d.unpinned o .MemTile).insertionSort d.byMemWeightDesc).zipIdx s₁ = .ok s₂ ∧
      placeInTurn (d.isLegalPosition s₂.physToLogical)
        (d.unclaimed o.collected .ShimNOCTile o.availShim)
        (d.unpinned o .ShimNOCTile).zipIdx s₂ = .ok s := by
  unfold generateInitialPlacement at h
  simp only [bind, Except.bind] at h
  split at h
  · cases h
  · rename_i s₁ h₁
    split at h
    · cases h
    · rename_i s₂ h₂
      exact ⟨s₁, s₂, h₁, h₂, h⟩

/-- **The initial placement records its core tiles.** -/
theorem generateInitialPlacement_recorded {o : d.Orders} {s : Placing}
    (h : d.generateInitialPlacement o = .ok s) :
    d.Recorded s.movableTiles s.currentPlacement s.physToLogical := by
  obtain ⟨s₁, s₂, h₁, h₂, h₃⟩ := generateInitialPlacement_cases h
  obtain ⟨hpin, -, hplaced⟩ := @foldl_placePinned d o.collected {} rfl
    (fun _ _ h => by cases h) (fun _ _ h => by cases h)
  have hcores : ∀ op ∈ (d.unpinned o .CoreTile).insertionSort d.byMemWeightDesc,
      d.tileType op = some .CoreTile ∧ d.pinned op = none := fun op hop =>
    mem_unpinned ((List.perm_insertionSort _ _).mem_iff.1 hop)
  have hs₁ := placeCores_recorded _
    ((List.perm_insertionSort _ _).nodup_iff.2 (unpinned_nodup o .CoreTile))
    (fun op hop => isCore_iff.2 (hcores op hop).1) _ (fun pos hpos => by
      have hmem := (List.perm_insertionSort _ _).mem_iff.1 (List.mem_filter.1 hpos).1
      exact isInt_of_mem_positions (List.mem_filter.1 hmem).1) _ s₁ hpin
    (fun op hop => by
      by_contra hsome
      obtain ⟨pos, hpos⟩ := Option.ne_none_iff_exists'.1 hsome
      have hpinned := hplaced op pos hpos
      rw [(hcores op hop).2] at hpinned
      cases hpinned) h₁
  have hs₂ := placeInTurn_recorded (fun h => by cases h)
    (fun pos hpos => isInt_of_mem_nonCompTiles o.availMem_perm hpos) _ (fun x hx => by
      have hmem := List.fst_mem_of_mem_zipIdx hx
      exact (mem_unpinned ((List.perm_insertionSort _ _).mem_iff.1 hmem)).1) s₁ s₂ hs₁ h₂
  exact placeInTurn_recorded (fun h => by cases h)
    (fun pos hpos => isInt_of_mem_nonCompTiles o.availShim_perm hpos) _ (fun x hx =>
      (mem_unpinned (List.fst_mem_of_mem_zipIdx hx)).1) s₂ s hs₂ h₃

end Design

end MlirAie.Placer
