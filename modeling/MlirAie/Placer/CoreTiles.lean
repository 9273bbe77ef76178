import MlirAie.Placer.Finalize

/-!
# Core tiles in an annealing

* **`generateInitialPlacement_placed`**: where pinned core tiles are apart, all of them are;
* **`Proposes.accept_cores`**: and remain so as tiles move;
* `LegalCores`, **`SearchReaches.legalCores`**: what holds of the placement at the end.
-/

namespace MlirAie.Placer

namespace Design

variable {d : Design} {s : State} {placement : Placement} {phys : TileID → Option ℕ}
  {moves : List Move}

def DistinctPins (d : Design) : Prop :=
  ∀ op op' pos, d.isCore op = true → d.isCore op' = true → d.pinned op = some pos →
    d.pinned op' = some pos → op = op'

/-- A core tile is at a position of a core, and recorded there. -/
def CorePlaced (d : Design) (placement : Placement) (phys : TileID → Option ℕ) (op : ℕ) : Prop :=
  ∃ pos, placement op = some pos ∧ d.target.getTileType pos = .CoreTile ∧ phys pos = some op

def CoresPlaced (d : Design) (placement : Placement) (phys : TileID → Option ℕ) : Prop :=
  ∀ op, d.isCore op = true → d.CorePlaced placement phys op

/-- The position is on the array, and of the type of the tile. -/
def Suits (d : Design) (op : ℕ) (pos : TileID) : Prop :=
  d.tileType op = some (d.target.getTileType pos) ∧ pos ∈ d.target.positions

/-- A tile that is placed is where it suits, or was put at the origin. -/
def Typed (d : Design) (placement : Placement) : Prop :=
  ∀ op pos, placement op = some pos → d.Suits op pos ∨ pos = ⟨0, 0⟩

/-! ## The initial placement -/

theorem foldl_placePinned_cores (hpins : d.DistinctPins) (ops : List ℕ) (s : Placing)
    (done : List ℕ)
    (hdone : ∀ op ∈ done, ∀ pos, d.pinned op = some pos → s.currentPlacement op = some pos ∧
      (d.isCore op = true → s.physToLogical pos = some op)) :
    ∀ op ∈ done ++ ops, ∀ pos, d.pinned op = some pos →
      (ops.foldl d.placePinned s).currentPlacement op = some pos ∧
        (d.isCore op = true → (ops.foldl d.placePinned s).physToLogical pos = some op) := by
  induction ops generalizing s done with
  | nil => simpa using hdone
  | cons op ops ih =>
    have hstep := ih (d.placePinned s op) (done ++ [op]) ?_
    · rwa [List.append_assoc] at hstep
    intro op' hop' pos' hpin'
    unfold placePinned
    cases hpin : d.pinned op with
    | none =>
      rcases List.mem_append.1 hop' with hop' | hop'
      · exact hdone op' hop' pos' hpin'
      · rw [List.mem_singleton.1 hop', hpin] at hpin'
        cases hpin'
    | some pos =>
      simp only
      by_cases heq : op' = op
      · subst heq
        rw [hpin, Option.some.injEq] at hpin'
        subst hpin'
        exact ⟨Function.update_self .., fun _ => Function.update_self ..⟩
      · have hmem : op' ∈ done := by
          rcases List.mem_append.1 hop' with hop' | hop'
          · exact hop'
          · exact absurd (List.mem_singleton.1 hop') heq
        obtain ⟨hat, hrec⟩ := hdone op' hmem pos' hpin'
        refine ⟨(Function.update_of_ne heq ..).trans hat, fun hcore => ?_⟩
        have hne : pos' ≠ pos := by
          rintro rfl
          have htype := (pinned_spec hpin).1.trans (pinned_spec hpin').1.symm
          exact heq (hpins op' op pos' hcore
            (isCore_iff.2 (htype.trans (isCore_iff.1 hcore))) hpin' hpin)
        exact (Function.update_of_ne hne ..).trans (hrec hcore)

theorem CorePlaced.placeCore {op op' : ℕ} {pos : TileID} (h : d.CorePlaced placement phys op')
    (hne : op' ≠ op) (hlegal : d.isLegalPosition phys op pos = true) :
    d.CorePlaced (Function.update placement op (some pos)) (Function.update phys pos (some op))
      op' := by
  obtain ⟨pos', hat, htype, hrec⟩ := h
  refine ⟨pos', (Function.update_of_ne hne ..).trans hat, htype, ?_⟩
  have hpos : pos' ≠ pos := by
    rintro rfl
    exact hne ((isLegalPosition_iff.1 hlegal).2.1 htype op' hrec)
  exact (Function.update_of_ne hpos ..).trans hrec

theorem placeCores_cores (ops : List ℕ) (hnodup : ops.Nodup)
    (hcore : ∀ op ∈ ops, d.isCore op = true) (avail : List TileID) (s s' : Placing)
    (done : List ℕ) (hdone : ∀ op ∈ done, d.CorePlaced s.currentPlacement s.physToLogical op)
    (hdisj : ∀ op ∈ ops, op ∉ done) (h : d.placeCores ops avail s = .ok s') :
    ∀ op ∈ done ++ ops, d.CorePlaced s'.currentPlacement s'.physToLogical op := by
  induction ops generalizing avail s done with
  | nil =>
    obtain rfl := Except.ok.inj h
    simpa using hdone
  | cons op ops ih =>
    rw [List.nodup_cons] at hnodup
    unfold placeCores at h
    cases htake : takeLegal (d.isLegalPosition s.physToLogical op) avail with
    | none =>
      rw [htake] at h
      cases h
    | some r =>
      obtain ⟨pos, rest⟩ := r
      rw [htake] at h
      obtain ⟨⟨hlegal, -⟩, -⟩ := takeLegal_spec htake
      have hstep := ih hnodup.2 (fun op' hop' => hcore op' (List.mem_cons_of_mem _ hop')) rest _
        (done ++ [op]) ?_ ?_ h
      · rwa [List.append_assoc] at hstep
      · intro op' hop'
        by_cases heq : op' = op
        · subst heq
          refine ⟨pos, Function.update_self .., ?_, Function.update_self ..⟩
          exact type_eq_core (hcore op' List.mem_cons_self) (isLegalPosition_iff.1 hlegal).1
        · rcases List.mem_append.1 hop' with hop' | hop'
          · exact (hdone op' hop').placeCore heq hlegal
          · exact absurd (List.mem_singleton.1 hop') heq
      · intro op' hop' hmem
        rcases List.mem_append.1 hmem with hmem | hmem
        · exact hdisj op' (List.mem_cons_of_mem _ hop') hmem
        · rw [List.mem_singleton.1 hmem] at hop'
          exact hnodup.1 hop'

theorem placeInTurn_spec {legal : ℕ → TileID → Bool} {avail : List TileID} (ops : List (ℕ × ℕ))
    (s s' : Placing) (h : placeInTurn legal avail ops s = .ok s') :
    s'.physToLogical = s.physToLogical ∧
      (∀ op, op ∉ ops.map Prod.fst → s'.currentPlacement op = s.currentPlacement op) ∧
      ∀ op ∈ ops.map Prod.fst, ∃ pos ∈ avail, legal op pos = true ∧
        s'.currentPlacement op = some pos := by
  induction ops generalizing s with
  | nil =>
    obtain rfl := Except.ok.inj h
    exact ⟨rfl, fun _ _ => rfl, fun _ h => absurd h List.not_mem_nil⟩
  | cons x ops ih =>
    obtain ⟨op, idx⟩ := x
    unfold placeInTurn at h
    simp only at h
    split_ifs at h with hbad
    rw [not_or] at hbad
    obtain ⟨hphys, hother, hplaced⟩ := ih _ h
    have hlt : idx % avail.length < avail.length :=
      Nat.mod_lt _ (List.length_pos_of_ne_nil hbad.1)
    rw [List.getD_eq_getElem _ _ hlt] at hother
    refine ⟨hphys, fun op' hop' => ?_, fun op' hop' => ?_⟩
    · rw [List.map_cons, List.mem_cons, not_or] at hop'
      exact (hother op' hop'.2).trans (Function.update_of_ne hop'.1 ..)
    · by_cases hmem : op' ∈ ops.map Prod.fst
      · exact hplaced op' hmem
      · obtain rfl : op' = op := by
          rcases List.mem_cons.1 hop' with h | h
          · exact h
          · exact absurd h hmem
        have hlegal := Bool.eq_true_of_not_eq_false hbad.2
        rw [List.getD_eq_getElem _ _ hlt] at hlegal
        exact ⟨_, List.getElem_mem hlt, hlegal, (hother op' hmem).trans (Function.update_self ..)⟩

/-- A tile that is placed is where it suits. -/
def StrictlyTyped (d : Design) (placement : Placement) : Prop :=
  ∀ op pos, placement op = some pos → d.Suits op pos

theorem StrictlyTyped.update (h : d.StrictlyTyped placement) {op : ℕ} {pos : TileID}
    (htype : d.Suits op pos) :
    d.StrictlyTyped (Function.update placement op (some pos)) := by
  intro op' pos' hpos'
  by_cases heq : op' = op
  · subst heq
    rw [Function.update_self, Option.some.injEq] at hpos'
    rwa [← hpos']
  · rw [Function.update_of_ne heq] at hpos'
    exact h op' pos' hpos'

theorem placeCores_typed (ops : List ℕ) (avail : List TileID)
    (havail : ∀ pos ∈ avail, pos ∈ d.target.positions) (s s' : Placing)
    (hs : d.StrictlyTyped s.currentPlacement) (h : d.placeCores ops avail s = .ok s') :
    d.StrictlyTyped s'.currentPlacement ∧
      ∀ op, s.currentPlacement op ≠ none → s'.currentPlacement op ≠ none := by
  induction ops generalizing avail s with
  | nil =>
    obtain rfl := Except.ok.inj h
    exact ⟨hs, fun _ h => h⟩
  | cons op ops ih =>
    unfold placeCores at h
    cases htake : takeLegal (d.isLegalPosition s.physToLogical op) avail with
    | none =>
      rw [htake] at h
      cases h
    | some r =>
      obtain ⟨pos, rest⟩ := r
      rw [htake] at h
      obtain ⟨⟨hlegal, hmem⟩, hrest⟩ := takeLegal_spec htake
      obtain ⟨htyped, hkeep⟩ := ih rest (fun pos hpos => havail pos (hrest pos hpos)) _
        (hs.update ⟨(isLegalPosition_iff.1 hlegal).1, havail pos hmem⟩) h
      refine ⟨htyped, fun op' hop' => hkeep op' ?_⟩
      by_cases heq : op' = op
      · subst heq
        simp
      · simp only [Function.update_of_ne heq]
        exact hop'

theorem placeInTurn_typed {legal : ℕ → TileID → Bool} {type : AIETileType} {avail : List TileID}
    (havail : ∀ pos ∈ avail, d.target.getTileType pos = type ∧ pos ∈ d.target.positions)
    {ops : List (ℕ × ℕ)}
    (hops : ∀ x ∈ ops, d.tileType x.1 = some type) {s s' : Placing}
    (hs : d.StrictlyTyped s.currentPlacement)
    (h : placeInTurn legal avail ops s = .ok s') : d.StrictlyTyped s'.currentPlacement := by
  obtain ⟨-, hother, hplaced⟩ := placeInTurn_spec ops s s' h
  intro op pos hpos
  by_cases hmem : op ∈ ops.map Prod.fst
  · obtain ⟨pos', hpos', -, hat⟩ := hplaced op hmem
    obtain rfl := Option.some_injective _ (hpos.symm.trans hat)
    obtain ⟨x, hx, rfl⟩ := List.mem_map.1 hmem
    exact ⟨by rw [hops x hx, (havail pos hpos').1], (havail pos hpos').2⟩
  · rw [hother op hmem] at hpos
    exact hs op pos hpos

theorem mem_collected (o : d.Orders) {op : ℕ} {type : AIETileType}
    (htype : d.tileType op = some type) : op ∈ o.collected :=
  o.collected_perm.mem_iff.2 (List.mem_range.2 (lt_of_tileType htype))

theorem mem_unpinned_iff (o : d.Orders) {op : ℕ} {type : AIETileType} :
    op ∈ d.unpinned o type ↔ d.tileType op = some type ∧ d.pinned op = none := by
  refine ⟨mem_unpinned, fun h => ?_⟩
  exact List.mem_filter.2 ⟨mem_collected o h.1, by simpa using h⟩

theorem mem_unclaimed {type : AIETileType} {avail : List TileID}
    (hperm : avail.Perm (d.target.nonCompTiles.filter fun t => d.target.getTileType t = type))
    {collected : List ℕ} {pos : TileID} (h : pos ∈ d.unclaimed collected type avail) :
    d.target.getTileType pos = type ∧ pos ∈ d.target.positions := by
  obtain ⟨hmem, htype⟩ := List.mem_filter.1 (hperm.mem_iff.1 (List.mem_filter.1 h).1)
  exact ⟨by simpa using htype, (List.mem_filter.1 hmem).1⟩

theorem pinned_mem_positions {op : ℕ} {pos : TileID} (h : d.pinned op = some pos) :
    pos ∈ d.target.positions := by
  unfold pinned at h
  obtain ⟨lt, hlt, h⟩ := Option.bind_eq_some_iff.1 h
  obtain ⟨col, hcol, h⟩ := Option.bind_eq_some_iff.1 h
  obtain ⟨row, hrow, rfl⟩ := Option.map_eq_some_iff.1 h
  have hverify := d.verified lt (List.mem_of_getElem? hlt)
  unfold LogicalTileOp.verify at hverify
  simp only [hcol, hrow, Option.all_some, Bool.and_eq_true, decide_eq_true_eq] at hverify
  obtain ⟨⟨⟨hcols, hrows⟩, -⟩, -⟩ := hverify
  refine List.mem_flatMap.2 ⟨col.toNat, List.mem_range.2 (by omega), ?_⟩
  refine List.mem_map.2 ⟨row.toNat, List.mem_range.2 (by omega), ?_⟩
  rw [Int.toNat_of_nonneg hcols.1, Int.toNat_of_nonneg hrows.1]

structure InitiallyPlaced (d : Design) (s : Placing) : Prop where
  cores : d.CoresPlaced s.currentPlacement s.physToLogical
  typed : d.StrictlyTyped s.currentPlacement
  placed : ∀ op type, d.tileType op = some type →
    (type = .ShimPLTile → d.pinned op ≠ none) → s.currentPlacement op ≠ none

theorem placeCores_placed (hpins : d.DistinctPins) {o : d.Orders} {s₁ : Placing}
    (h₁ : d.placeCores ((d.unpinned o .CoreTile).insertionSort d.byMemWeightDesc)
      (d.unclaimed o.collected .CoreTile (d.target.compTiles.insertionSort compBefore))
      (o.collected.foldl d.placePinned {}) = .ok s₁) :
    d.CoresPlaced s₁.currentPlacement s₁.physToLogical := by
  have hpinned := @foldl_placePinned_cores d hpins o.collected {} [] (by simp)
  have hsorted : ∀ op, op ∈ (d.unpinned o .CoreTile).insertionSort d.byMemWeightDesc ↔
      d.tileType op = some .CoreTile ∧ d.pinned op = none := fun op =>
    (List.perm_insertionSort _ _).mem_iff.trans (mem_unpinned_iff o)
  have hcores := placeCores_cores _ ((List.perm_insertionSort _ _).nodup_iff.2
    (unpinned_nodup o .CoreTile)) (fun op hop => isCore_iff.2 ((hsorted op).1 hop).1) _ _ s₁
    (o.collected.filter fun op => d.isCore op && (d.pinned op).isSome) ?_ ?_ h₁
  · intro op hcore
    refine hcores op (List.mem_append.2 ?_)
    cases hpin : d.pinned op with
    | some pos =>
      exact .inl (List.mem_filter.2 ⟨mem_collected o (isCore_iff.1 hcore), by simp [hcore, hpin]⟩)
    | none => exact .inr ((hsorted op).2 ⟨isCore_iff.1 hcore, hpin⟩)
  · intro op hop
    obtain ⟨hmem, hop⟩ := List.mem_filter.1 hop
    obtain ⟨hcore, hpin⟩ := Bool.and_eq_true_iff.1 hop
    obtain ⟨pos, hpos⟩ := Option.isSome_iff_exists.1 hpin
    obtain ⟨hat, hrec⟩ := hpinned op hmem pos hpos
    exact ⟨pos, hat, type_eq_core hcore (pinned_spec hpos).1, hrec hcore⟩
  · intro op hop hmem
    have hsome := (List.mem_filter.1 hmem).2
    simp [((hsorted op).1 hop).2] at hsome

/-- **The initial placement** puts every tile on one of its type, and cores apart. -/
theorem generateInitialPlacement_placed (hpins : d.DistinctPins) {o : d.Orders} {s : Placing}
    (h : d.generateInitialPlacement o = .ok s) : d.InitiallyPlaced s := by
  obtain ⟨s₁, s₂, h₁, h₂, h₃⟩ := generateInitialPlacement_cases h
  have hcores := placeCores_placed hpins h₁
  have hpinned := @foldl_placePinned_cores d hpins o.collected {} [] (by simp)
  obtain ⟨-, -, hplaced⟩ := @foldl_placePinned d o.collected {} rfl
    (fun _ _ h => by cases h) (fun _ _ h => by cases h)
  have hsorted : ∀ op, op ∈ (d.unpinned o .MemTile).insertionSort d.byMemWeightDesc ↔
      d.tileType op = some .MemTile ∧ d.pinned op = none := fun op =>
    (List.perm_insertionSort _ _).mem_iff.trans (mem_unpinned_iff o)
  -- every stage keeps the types
  obtain ⟨htyped₁, hkeep₁⟩ := placeCores_typed _ _ (fun pos hpos => (List.mem_filter.1
      ((List.perm_insertionSort _ _).mem_iff.1 (List.mem_filter.1 hpos).1)).1) _ _
    (fun op pos hpos => ⟨(pinned_spec (hplaced op pos hpos)).1,
      pinned_mem_positions (hplaced op pos hpos)⟩) h₁
  have htyped₂ := placeInTurn_typed (fun _ hpos => mem_unclaimed o.availMem_perm hpos)
    (fun x hx => ((hsorted _).1 (List.fst_mem_of_mem_zipIdx hx)).1) htyped₁ h₂
  have htyped₃ := placeInTurn_typed (fun _ hpos => mem_unclaimed o.availShim_perm hpos)
    (fun x hx => (mem_unpinned (List.fst_mem_of_mem_zipIdx hx)).1) htyped₂ h₃
  -- the last two stages place what they are about and nothing else
  obtain ⟨hphys₂, hother₂, hplaced₂⟩ := placeInTurn_spec _ _ _ h₂
  obtain ⟨hphys₃, hother₃, hplaced₃⟩ := placeInTurn_spec _ _ _ h₃
  rw [List.zipIdx_map_fst] at hother₂ hplaced₂ hother₃ hplaced₃
  have hkeep : ∀ op, s₁.currentPlacement op ≠ none → s.currentPlacement op ≠ none := by
    intro op hop
    by_cases hmem₃ : op ∈ d.unpinned o .ShimNOCTile
    · obtain ⟨pos, -, -, hpos⟩ := hplaced₃ op hmem₃
      simp [hpos]
    · rw [hother₃ op hmem₃]
      by_cases hmem : op ∈ (d.unpinned o .MemTile).insertionSort d.byMemWeightDesc
      · obtain ⟨pos, -, -, hpos⟩ := hplaced₂ op hmem
        simp [hpos]
      · rwa [hother₂ op hmem]
  refine ⟨fun op hcore => ?_, htyped₃, fun op type htype hpl => ?_⟩
  · obtain ⟨pos, hat, htype, hrec⟩ := hcores op hcore
    have hnot : ∀ type, d.tileType op = some type → type = .CoreTile := fun type ht =>
      Option.some_injective _ (ht.symm.trans (isCore_iff.1 hcore))
    refine ⟨pos, ?_, htype, by rw [hphys₃, hphys₂, hrec]⟩
    rw [hother₃ op fun hmem => absurd (hnot _ (mem_unpinned hmem).1) (by decide),
      hother₂ op fun hmem => absurd (hnot _ ((hsorted op).1 hmem).1) (by decide), hat]
  · cases hpin : d.pinned op with
    | some pos =>
      refine hkeep op (hkeep₁ op ?_)
      rw [(hpinned op (by simpa using mem_collected o htype) pos hpin).1]
      simp
    | none =>
      cases type with
      | CoreTile =>
        obtain ⟨pos, hat, -, -⟩ := hcores op (isCore_iff.2 htype)
        exact hkeep op (by simp [hat])
      | MemTile =>
        obtain ⟨pos, -, -, hpos⟩ := hplaced₂ op ((hsorted op).2 ⟨htype, hpin⟩)
        have hnot : op ∉ d.unpinned o .ShimNOCTile := fun hmem => by
          have hshim := (mem_unpinned hmem).1
          rw [htype] at hshim
          cases hshim
        simp [hother₃ op hnot, hpos]
      | ShimNOCTile =>
        obtain ⟨pos, -, -, hpos⟩ := hplaced₃ op ((mem_unpinned_iff o).2 ⟨htype, hpin⟩)
        simp [hpos]
      | ShimPLTile => exact absurd hpin (hpl rfl)

/-! ## The start -/

/-- Core tiles are placed, apart from each other, and every tile that is placed is on one of its
type, or at the origin. -/
structure LegalCores (d : Design) (placement : Placement) : Prop where
  cores : ∀ op, d.isCore op = true → ∃ pos, placement op = some pos ∧
    d.target.getTileType pos = .CoreTile
  apart : ∀ op op' pos, d.isCore op = true → d.isCore op' = true → placement op = some pos →
    placement op' = some pos → op = op'
  typed : d.Typed placement
  placed : ∀ op type, d.tileType op = some type →
    (type = .ShimPLTile → d.pinned op ≠ none) → placement op ≠ none

/-- What a state has in common with the one that the annealing starts from. -/
structure CoreState (d : Design) (s : State) : Prop where
  recorded : d.StateRecorded s
  cores : d.CoresPlaced s.currentPlacement s.physToLogical
  typed : d.Typed s.currentPlacement
  placed : ∀ op type, d.tileType op = some type →
    (type = .ShimPLTile → d.pinned op ≠ none) → s.currentPlacement op ≠ none

theorem CoreState.legalCores (h : d.CoreState s) : d.LegalCores s.currentPlacement := by
  refine ⟨fun op hcore => ?_, fun op op' pos hcore hcore' hat hat' => ?_, h.typed, h.placed⟩
  · obtain ⟨pos, hat, htype, -⟩ := h.cores op hcore
    exact ⟨pos, hat, htype⟩
  · obtain ⟨pos₁, hat₁, -, hrec₁⟩ := h.cores op hcore
    obtain ⟨pos₂, hat₂, -, hrec₂⟩ := h.cores op' hcore'
    obtain rfl := Option.some_injective _ (hat.symm.trans hat₁)
    obtain rfl := Option.some_injective _ (hat'.symm.trans hat₂)
    exact Option.some_injective _ (hrec₁.symm.trans hrec₂)

theorem initBoundingBoxes_of_placed {op : ℕ} {pos : TileID} (hpos : placement op = some pos) :
    (d.initBoundingBoxes placement).1 op = some pos := by
  show (if _ then _ else placement op) = _
  rw [if_neg (by simp [hpos]), hpos]

theorem start_coreState (hpins : d.DistinctPins) {o : d.Orders} (h : d.start o = some s) :
    d.CoreState s := by
  obtain ⟨p, hp, rfl⟩ := start_cases h
  have hinit := generateInitialPlacement_placed hpins hp
  refine ⟨(generateInitialPlacement_recorded hp).initBoundingBoxes, fun op hcore => ?_,
    fun op pos hpos => ?_, fun op type htype hpl => ?_⟩
  · obtain ⟨pos, hat, htype, hrec⟩ := hinit.cores op hcore
    exact ⟨pos, initBoundingBoxes_of_placed hat, htype, hrec⟩
  · change (if _ then _ else p.currentPlacement op) = _ at hpos
    split_ifs at hpos with hnone
    · exact .inr (Option.some.inj hpos).symm
    · exact .inl (hinit.typed op pos hpos)
  · obtain ⟨pos, hat⟩ := Option.ne_none_iff_exists'.1 (hinit.placed op type htype hpl)
    simp [initializeSAState, initBoundingBoxes_of_placed hat]

/-! ## Moves -/

theorem Typed.update (h : d.Typed placement) {op : ℕ} {pos : TileID}
    (htype : d.Suits op pos ∨ pos = ⟨0, 0⟩) :
    d.Typed (Function.update placement op (some pos)) := by
  intro op' pos' hpos'
  by_cases heq : op' = op
  · subst heq
    rw [Function.update_self, Option.some.injEq] at hpos'
    exact hpos' ▸ htype
  · rw [Function.update_of_ne heq] at hpos'
    exact h op' pos' hpos'

theorem Typed.place (h : d.Typed placement)
    (hmoves : ∀ m ∈ moves, d.Suits m.1 m.2 ∨ m.2 = ⟨0, 0⟩) :
    d.Typed (place moves placement) := by
  induction moves generalizing placement with
  | nil => exact h
  | cons m moves ih =>
    exact ih (h.update (hmoves m List.mem_cons_self))
      fun m' hm' => hmoves m' (List.mem_cons_of_mem _ hm')

theorem Proposes.suits (h : d.Proposes s moves) (hs : d.StateRecorded s)
    (htyped : d.Typed s.currentPlacement) : ∀ m ∈ moves, d.Suits m.1 m.2 ∨ m.2 = ⟨0, 0⟩ := by
  have htypes := (h.valid hs).typed
  have hat : ∀ tile ∈ s.movableTiles, ∀ op,
      d.tileType op = some (d.target.getTileType (posAt s.currentPlacement tile)) →
        d.Suits op (posAt s.currentPlacement tile) ∨ posAt s.currentPlacement tile = ⟨0, 0⟩ :=
    fun tile htile op htype => (htyped tile _ (hs.posAt_spec htile).1).imp_left
      fun hsuits => ⟨htype, hsuits.2⟩
  intro m hm
  cases h with
  | shift hmovable hpos _ _ _ =>
    have htype := htypes m hm
    rw [List.mem_singleton.1 hm] at htype ⊢
    exact .inl ⟨htype, hpos⟩
  | @swap tile other hmovable hother _ _ _ _ _ _ =>
    have htype := htypes m hm
    rcases List.mem_cons.1 hm with rfl | hm
    · exact hat other hother _ htype
    · rw [List.mem_singleton.1 hm] at htype ⊢
      exact hat tile hmovable _ htype

theorem place_ne_none {op : ℕ} (h : placement op ≠ none) : place moves placement op ≠ none := by
  induction moves generalizing placement with
  | nil => exact h
  | cons m moves ih =>
    refine ih ?_
    by_cases heq : op = m.1
    · subst heq
      simp
    · simp only [Function.update_of_ne heq]
      exact h

theorem Recorded.ne_posAt (hs : d.StateRecorded s) {tile op : ℕ} {pos : TileID}
    (hmovable : tile ∈ s.movableTiles) (hne : op ≠ tile)
    (htype : d.target.getTileType pos = .CoreTile) (hrec : s.physToLogical pos = some op) :
    pos ≠ posAt s.currentPlacement tile := by
  rintro rfl
  obtain ⟨hat, htile⟩ := hs.posAt_spec hmovable
  have hphys := hs.recorded tile hmovable (isCore_iff.2 (htype ▸ htile)) _ hat
  exact hne (Option.some_injective _ (hrec.symm.trans hphys))

/-- **Core tiles stay apart** as a move is accepted. -/
theorem Proposes.accept_cores (h : d.Proposes s moves) (hs : d.StateRecorded s)
    (hcores : d.CoresPlaced s.currentPlacement s.physToLogical) :
    d.CoresPlaced (place moves s.currentPlacement)
      (record moves (erase ((oldPlacements s moves).map Prod.snd) s.physToLogical)) := by
  intro op hcore
  obtain ⟨pos', hat', htype', hrec'⟩ := hcores op hcore
  cases h with
  | @shift tile pos hmovable _ _ _ hlegal =>
    simp only [oldPlacements, List.map_cons, List.map_nil, erase, record, place, List.foldl_cons,
      List.foldl_nil]
    by_cases heq : op = tile
    · subst heq
      refine ⟨pos, Function.update_self .., ?_, Function.update_self ..⟩
      exact type_eq_core hcore (isLegalPosition_iff.1 hlegal).1
    · have hpos : pos' ≠ pos := by
        rintro rfl
        exact heq ((isLegalPosition_iff.1 hlegal).2.1 htype' op hrec')
      have hold := hs.ne_posAt hmovable heq htype' hrec'
      refine ⟨pos', (Function.update_of_ne heq ..).trans hat', htype', ?_⟩
      rw [Function.update_of_ne hpos, Function.update_of_ne hold, hrec']
  | @swap tile other hmovable hother hdiff hne htype hpos _ _ =>
    simp only [oldPlacements, List.map_cons, List.map_nil, erase, record, place, List.foldl_cons,
      List.foldl_nil]
    by_cases h₂ : op = other
    · subst h₂
      obtain ⟨-, htile⟩ := hs.posAt_spec hmovable
      refine ⟨_, Function.update_self .., ?_, Function.update_self ..⟩
      exact type_eq_core hcore (htype.trans htile)
    by_cases h₁ : op = tile
    · subst h₁
      refine ⟨posAt s.currentPlacement other, ?_, type_eq_core hcore hpos, ?_⟩
      · rw [Function.update_of_ne h₂, Function.update_self]
      · rw [Function.update_of_ne hne, Function.update_self]
    · have hold := hs.ne_posAt hmovable h₁ htype' hrec'
      have hold' := hs.ne_posAt hother h₂ htype' hrec'
      refine ⟨pos', ?_, htype', ?_⟩
      · rw [Function.update_of_ne h₂, Function.update_of_ne h₁, hat']
      · rw [Function.update_of_ne hold, Function.update_of_ne hold', Function.update_of_ne hold',
          Function.update_of_ne hold, hrec']

theorem CoreState.accept (h : d.CoreState s) (hmoves : d.Proposes s moves) (order : List ℕ) :
    d.CoreState (d.tryMove moves order true s) := by
  have hplacement : (d.tryMove moves order true s).currentPlacement =
      place moves s.currentPlacement := evaluateMoves_placement ..
  refine ⟨?_, ?_, ?_, ?_⟩
  · unfold StateRecorded
    rw [hplacement]
    exact hmoves.accept_recorded h.recorded
  · rw [hplacement]
    exact hmoves.accept_cores h.recorded h.cores
  · rw [hplacement]
    exact h.typed.place (hmoves.suits h.recorded h.typed)
  · intro op type htype hpl
    rw [hplacement]
    exact place_ne_none (h.placed op type htype hpl)

theorem Proposes.reject_placement (h : d.Proposes s moves) (hs : d.StateRecorded s)
    (order : List ℕ) : (d.tryMove moves order false s).currentPlacement = s.currentPlacement := by
  show place _ (d.evaluateMoves _ _ moves).placement = _
  rw [evaluateMoves_placement, (h.valid hs).place_old hs]

theorem CoreState.reject (h : d.CoreState s) (hmoves : d.Proposes s moves) (order : List ℕ) :
    d.CoreState (d.tryMove moves order false s) := by
  have hplacement := hmoves.reject_placement h.recorded order
  have hphys : ∀ pos, d.target.getTileType pos = .CoreTile →
      (d.tryMove moves order false s).physToLogical pos = s.physToLogical pos :=
    fun pos hcore => hmoves.revert_physToLogical h.recorded hcore
  refine ⟨?_, fun op hcore => ?_, ?_, ?_⟩
  · unfold StateRecorded
    rw [hplacement]
    exact h.recorded.congr hphys
  · obtain ⟨pos, hat, htype, hrec⟩ := h.cores op hcore
    exact ⟨pos, by rw [hplacement, hat], htype, by rw [hphys pos htype, hrec]⟩
  · rw [hplacement]
    exact h.typed
  · rw [hplacement]
    exact h.placed

/-! ## Runs -/

theorem coreState_preserves : d.Preserves d.CoreState := by
  refine ⟨fun s moves order accept h hmoves => ?_, fun s moves h => ?_, fun s h => ?_⟩
  · cases accept with
    | true => exact h.accept hmoves order
    | false => exact h.reject hmoves order
  · cases moves with
    | nil => exact h
    | cons m moves => exact ⟨h.recorded, h.cores, h.typed, h.placed⟩
  · exact ⟨h.recorded, h.cores, h.typed, h.placed⟩

/-- **Core tiles are apart at the end** of a run, where those that are pinned are. -/
theorem SearchReaches.legalCores (hpins : d.DistinctPins) {o : d.Orders} {s : Search}
    (h : d.SearchReaches o s) (order : List ℕ) :
    d.LegalCores (d.restoreBest order s).currentPlacement ∧
      (d.restoreBest order s).usage =
        d.initResourceTracking (d.restoreBest order s).currentPlacement := by
  obtain ⟨⟨s', hs', heq⟩, husage⟩ := h.restored coreState_preserves
    (fun _ hstart => start_coreState hpins hstart) order
  exact ⟨heq ▸ hs'.legalCores, husage⟩

end Design

end MlirAie.Placer
