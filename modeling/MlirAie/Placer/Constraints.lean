import MlirAie.Placer.CoreTiles

/-!
# Stated coordinates in an annealing

* `Honoured`: a tile is on one of its type, at the coordinates that it states;
* **`Proposes.accept_honoured`**: tiles that are remain so as tiles move;
* **`SearchReaches.honoured`**: and are in the placement at the end of a run.
-/

namespace MlirAie.Placer

namespace Design

variable {d : Design} {s : State} {placement : Placement} {moves : List Move} {op : ℕ}
  {pos : TileID}

/-- A tile is on one of its type, at the coordinates that it states. -/
def Honoured (d : Design) (placement : Placement) (op : ℕ) : Prop :=
  ∃ pos, placement op = some pos ∧ d.tileType op = some (d.target.getTileType pos) ∧
    d.satisfiesConstraints op pos = true

def FitsMemTiles (d : Design) (op : ℕ) : Prop :=
  ∀ pos ∈ d.target.positions, d.target.getTileType pos = .MemTile →
    d.satisfiesConstraints op pos = true

theorem satisfiesConstraints_of_pinned (h : d.pinned op = some pos) :
    d.satisfiesConstraints op pos = true := by
  unfold pinned at h
  obtain ⟨lt, hlt, h⟩ := Option.bind_eq_some_iff.1 h
  obtain ⟨col, hcol, h⟩ := Option.bind_eq_some_iff.1 h
  obtain ⟨row, hrow, rfl⟩ := Option.map_eq_some_iff.1 h
  simp [satisfiesConstraints, LogicalTileOp.satisfiesConstraints, hlt, hcol, hrow]

theorem pinned_of_satisfiesConstraints {pos' : TileID} (h : d.pinned op = some pos)
    (hsat : d.satisfiesConstraints op pos' = true) : pos' = pos := by
  unfold pinned at h
  obtain ⟨lt, hlt, h⟩ := Option.bind_eq_some_iff.1 h
  obtain ⟨col, hcol, h⟩ := Option.bind_eq_some_iff.1 h
  obtain ⟨row, hrow, rfl⟩ := Option.map_eq_some_iff.1 h
  simp only [satisfiesConstraints, LogicalTileOp.satisfiesConstraints, hlt, hcol, hrow,
    Option.all_some, Bool.and_eq_true, decide_eq_true_eq] at hsat
  obtain ⟨rfl, rfl⟩ := hsat
  rfl

theorem Honoured.of_pinned (hpin : d.pinned op = some pos) (hat : placement op = some pos) :
    d.Honoured placement op :=
  ⟨pos, hat, (pinned_spec hpin).1, satisfiesConstraints_of_pinned hpin⟩

theorem Honoured.eq_pinned (h : d.Honoured placement op) (hpin : d.pinned op = some pos) :
    placement op = some pos := by
  obtain ⟨pos', hat, -, hsat⟩ := h
  rw [hat, pinned_of_satisfiesConstraints hpin hsat]

/-- Tiles are put where they may be. -/
theorem Honoured.update (h : d.Honoured placement op) {op' : ℕ}
    (htype : d.tileType op' = some (d.target.getTileType pos))
    (hsat : d.satisfiesConstraints op' pos = true) :
    d.Honoured (Function.update placement op' (some pos)) op := by
  by_cases heq : op = op'
  · subst heq
    exact ⟨pos, Function.update_self .., htype, hsat⟩
  · obtain ⟨pos', hat, hspec⟩ := h
    exact ⟨pos', (Function.update_of_ne heq ..).trans hat, hspec⟩

/-! ## The initial placement -/

theorem foldl_placePinned_at (ops : List ℕ) (s : Placing)
    (hop : op ∈ ops ∨ s.currentPlacement op = some pos) (hpin : d.pinned op = some pos) :
    (ops.foldl d.placePinned s).currentPlacement op = some pos := by
  induction ops generalizing s with
  | nil => exact hop.resolve_left List.not_mem_nil
  | cons op' ops ih =>
    refine ih _ ?_
    by_cases heq : op = op'
    · subst heq
      right
      unfold placePinned
      rw [hpin]
      exact Function.update_self ..
    · refine hop.imp (fun hmem => (List.mem_cons.1 hmem).resolve_left heq) fun hat => ?_
      unfold placePinned
      split
      · exact (Function.update_of_ne heq ..).trans hat
      · exact hat

theorem placeCores_honoured (ops : List ℕ) (avail : List TileID) (s s' : Placing)
    (hop : op ∈ ops ∨ d.Honoured s.currentPlacement op)
    (h : d.placeCores ops avail s = .ok s') : d.Honoured s'.currentPlacement op := by
  induction ops generalizing avail s with
  | nil =>
    obtain rfl := Except.ok.inj h
    exact hop.resolve_left List.not_mem_nil
  | cons op' ops ih =>
    unfold placeCores at h
    cases htake : takeLegal (d.isLegalPosition s.physToLogical op') avail with
    | none =>
      rw [htake] at h
      cases h
    | some r =>
      obtain ⟨pos, rest⟩ := r
      rw [htake] at h
      obtain ⟨⟨hlegal, -⟩, -⟩ := takeLegal_spec htake
      obtain ⟨htype, -, hsat⟩ := isLegalPosition_iff.1 hlegal
      refine ih rest _ ?_ h
      by_cases heq : op = op'
      · subst heq
        exact .inr ⟨pos, Function.update_self .., htype, hsat⟩
      · exact hop.imp (fun hmem => (List.mem_cons.1 hmem).resolve_left heq)
          fun hat => hat.update htype hsat

/-- **The initial placement** honours what tiles state, except that a memory tile may be put on any
other one. -/
theorem generateInitialPlacement_honoured {o : d.Orders} {p : Placing} {type : AIETileType}
    (h : d.generateInitialPlacement o = .ok p) (htype : d.tileType op = some type)
    (hpl : type = .ShimPLTile → d.pinned op ≠ none)
    (hmem : type = .MemTile → d.pinned op = none → d.FitsMemTiles op) :
    d.Honoured p.currentPlacement op := by
  obtain ⟨s₁, s₂, h₁, h₂, h₃⟩ := generateInitialPlacement_cases h
  obtain ⟨-, hother₂, hplaced₂⟩ := placeInTurn_spec _ _ _ h₂
  obtain ⟨-, hother₃, hplaced₃⟩ := placeInTurn_spec _ _ _ h₃
  rw [List.zipIdx_map_fst] at hother₂ hplaced₂ hother₃ hplaced₃
  have hsorted : ∀ type, op ∈ (d.unpinned o type).insertionSort d.byMemWeightDesc ↔
      d.tileType op = some type ∧ d.pinned op = none := fun type =>
    (List.perm_insertionSort _ _).mem_iff.trans (mem_unpinned_iff o)
  -- what is honoured after the core tiles stays so where the last two stages leave it alone
  have hkeep : (type = .CoreTile ∨ d.pinned op ≠ none) → d.Honoured s₁.currentPlacement op →
      d.Honoured p.currentPlacement op := by
    rintro hor ⟨pos, hat, hspec⟩
    have hnot : ∀ type', type' ≠ .CoreTile → ¬(d.tileType op = some type' ∧ d.pinned op = none) := by
      rintro type' hne ⟨htype', hnone⟩
      refine hor.elim (fun hcore => hne ?_) fun hpin => hpin hnone
      rw [← Option.some_injective _ (htype.symm.trans htype'), hcore]
    refine ⟨pos, ?_, hspec⟩
    rw [hother₃ op fun h => hnot .ShimNOCTile (by decide) ((mem_unpinned_iff o).1 h),
      hother₂ op fun h => hnot .MemTile (by decide) ((hsorted _).1 h), hat]
  cases hpin : d.pinned op with
  | some pos =>
    have hat := @foldl_placePinned_at d op pos o.collected {} (.inl (mem_collected o htype)) hpin
    exact hkeep (.inr (by simp [hpin]))
      (placeCores_honoured _ _ _ _ (.inr (.of_pinned hpin hat)) h₁)
  | none =>
    cases type with
    | CoreTile =>
      exact hkeep (.inl rfl) (placeCores_honoured _ _ _ _ (.inl ((hsorted _).2 ⟨htype, hpin⟩)) h₁)
    | MemTile =>
      obtain ⟨pos, hpos, -, hat⟩ := hplaced₂ op ((hsorted _).2 ⟨htype, hpin⟩)
      have htypePos := (isInt_of_mem_nonCompTiles o.availMem_perm hpos).2
      have hnonComp := o.availMem_perm.mem_iff.1 (List.mem_filter.1 hpos).1
      have hmemPos : pos ∈ d.target.positions :=
        (List.mem_filter.1 (List.mem_filter.1 hnonComp).1).1
      refine ⟨pos, ?_, by rw [htype, htypePos], hmem rfl hpin pos hmemPos htypePos⟩
      rw [hother₃ op fun h => ?_, hat]
      have hshim := (mem_unpinned h).1
      rw [htype] at hshim
      cases hshim
    | ShimNOCTile =>
      obtain ⟨pos, -, hlegal, hat⟩ := hplaced₃ op ((mem_unpinned_iff o).2 ⟨htype, hpin⟩)
      obtain ⟨htypePos, -, hsat⟩ := isLegalPosition_iff.1 hlegal
      exact ⟨pos, hat, htypePos, hsat⟩
    | ShimPLTile => exact absurd hpin (hpl rfl)

/-! ## Runs -/

theorem Honoured.place (h : d.Honoured placement op)
    (hmoves : ∀ m ∈ moves, d.tileType m.1 = some (d.target.getTileType m.2) ∧
      d.satisfiesConstraints m.1 m.2 = true) : d.Honoured (place moves placement) op := by
  induction moves generalizing placement with
  | nil => exact h
  | cons m moves ih =>
    obtain ⟨htype, hsat⟩ := hmoves m List.mem_cons_self
    exact ih (h.update htype hsat) fun m' hm' => hmoves m' (List.mem_cons_of_mem _ hm')

/-- **A move honours what tiles state.** -/
theorem Proposes.accept_honoured (h : d.Proposes s moves) (hs : d.StateRecorded s)
    (hop : d.Honoured s.currentPlacement op) :
    d.Honoured (Design.place moves s.currentPlacement) op := by
  have hvalid := (h.valid hs).typed
  refine hop.place fun m hm => ⟨hvalid m hm, ?_⟩
  cases h with
  | shift _ _ _ _ hlegal =>
    rw [List.mem_singleton.1 hm]
    exact (isLegalPosition_iff.1 hlegal).2.2
  | swap _ _ _ _ _ _ hsat hsat' =>
    rcases List.mem_cons.1 hm with rfl | hm
    · exact hsat
    · rw [List.mem_singleton.1 hm]
      exact hsat'

/-- The state has a record of its cores, and honours what a tile states. -/
def HonouredState (d : Design) (op : ℕ) (s : State) : Prop :=
  d.StateRecorded s ∧ d.Honoured s.currentPlacement op

theorem honoured_preserves (op : ℕ) : d.Preserves (d.HonouredState op) := by
  refine ⟨fun s moves order accept h hmoves => ?_, fun s moves h => ?_, fun s h => h⟩
  · obtain ⟨hrecorded, hop⟩ := h
    cases accept with
    | true =>
      have hplacement : (d.tryMove moves order true s).currentPlacement =
          Design.place moves s.currentPlacement := evaluateMoves_placement ..
      refine ⟨?_, by rw [hplacement]; exact hmoves.accept_honoured hrecorded hop⟩
      unfold StateRecorded
      rw [hplacement]
      exact hmoves.accept_recorded hrecorded
    | false =>
      have hplacement := hmoves.reject_placement hrecorded order
      refine ⟨?_, by rw [hplacement]; exact hop⟩
      unfold StateRecorded
      rw [hplacement]
      exact hrecorded.congr fun pos hcore => hmoves.revert_physToLogical hrecorded hcore
  · cases moves with
    | nil => exact h
    | cons m moves => exact h

/-- **At the end of a run**, the coordinates that a tile states are kept. -/
theorem SearchReaches.honoured {o : d.Orders} {s : Search} {type : AIETileType}
    (h : d.SearchReaches o s) (htype : d.tileType op = some type)
    (hpl : type = .ShimPLTile → d.pinned op ≠ none)
    (hmem : type = .MemTile → d.pinned op = none → d.FitsMemTiles op) (order : List ℕ) :
    d.Honoured (d.restoreBest order s).currentPlacement op := by
  have hstate : ∀ s₀, d.start o = some s₀ → d.HonouredState op s₀ := by
    intro s₀ hstart
    refine ⟨(start_invariant hstart).recorded, ?_⟩
    obtain ⟨p, hp, rfl⟩ := start_cases hstart
    obtain ⟨pos, hat, hspec⟩ := generateInitialPlacement_honoured hp htype hpl hmem
    exact ⟨pos, initBoundingBoxes_of_placed hat, hspec⟩
  obtain ⟨⟨s', hs', heq⟩, -⟩ := h.restored (honoured_preserves op) hstate order
  exact heq ▸ hs'.2

end Design

end MlirAie.Placer
