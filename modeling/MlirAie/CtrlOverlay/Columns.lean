import MlirAie.CtrlOverlay.Flows

/-!
# The columns of a device

* `mem_collect`: the tiles a device is collected to have;
* `Tiled`: a device once tiles were created in it;
* **`applyOverlayToDevice_overlaid`**: what the overlay adds to a device.
-/

namespace MlirAie.CtrlOverlay

open Route Lib

variable {δ : Type} {opts : Options} {target : TargetModel} {tokenTiles : List TileID}
  {d d' d₀ : Device δ} {t u : TileID} {tiles : List TileOp}

/-! ## Collecting and creating tiles -/

theorem find_tileID {op : TileOp} (h : (tiles.find? fun op => op.tileID = t) = some op) :
    op ∈ tiles ∧ op.tileID = t :=
  ⟨List.mem_of_find?_eq_some h, by simpa using List.find?_some h⟩

theorem find_isSome (t : TileID) :
    (∃ op, (tiles.find? fun op => op.tileID = t) = some op) ↔ t ∈ coords tiles := by
  rw [← Option.isSome_iff_exists, List.find?_isSome]
  constructor
  · rintro ⟨op, hop, h⟩
    exact ⟨op, hop, by simpa using h⟩
  · rintro ⟨op, hop, h⟩
    exact ⟨op, hop, by simpa using h⟩

theorem mem_assignTile {op op₀ : TileOp} :
    op ∈ assignTile tiles op₀ ↔ op = op₀ ∨ (op ∈ tiles ∧ op.tileID ≠ op₀.tileID) := by
  unfold assignTile
  by_cases h : (tiles.any fun op => op.tileID = op₀.tileID) = true
  · rw [if_pos h, List.mem_map]
    obtain ⟨op₁, hop₁, hid⟩ := List.any_eq_true.1 h
    have hid : op₁.tileID = op₀.tileID := by simpa using hid
    constructor
    · rintro ⟨op', hop', rfl⟩
      by_cases hid' : op'.tileID = op₀.tileID
      · rw [if_pos hid']
        exact .inl rfl
      · rw [if_neg hid']
        exact .inr ⟨hop', hid'⟩
    · rintro (rfl | ⟨hop, hne⟩)
      · exact ⟨op₁, hop₁, if_pos hid⟩
      · exact ⟨op, hop, if_neg hne⟩
  · rw [if_neg h, List.mem_append, List.mem_singleton, or_comm]
    refine or_congr_right (and_iff_left_of_imp fun hop heq => h ?_).symm
    exact List.any_eq_true.2 ⟨op, hop, by simpa using heq⟩

/-- The map from coordinates to tiles has the last operation for each. -/
theorem mem_collect {op : TileOp} :
    op ∈ tiles.foldl assignTile [] ↔
      (tiles.reverse.find? fun o => o.tileID = op.tileID) = some op := by
  induction tiles using List.reverseRecOn with
  | nil => simp
  | append_singleton tiles op₀ ih =>
    rw [List.foldl_append, List.foldl_cons, List.foldl_nil, mem_assignTile, List.reverse_append,
      List.reverse_singleton, List.singleton_append, List.find?_cons, ih]
    by_cases h : op₀.tileID = op.tileID
    · rw [decide_eq_true h]
      simp only [Option.some.injEq]
      constructor
      · rintro (h' | ⟨_, hne⟩)
        · exact h'.symm
        · exact absurd h.symm hne
      · intro h'
        exact .inl h'.symm
    · rw [decide_eq_false h]
      simp only
      constructor
      · rintro (rfl | ⟨h', _⟩)
        · exact absurd rfl h
        · exact h'
      · intro h'
        exact .inr ⟨h', fun h' => h h'.symm⟩

theorem coords_collect (tiles : List TileOp) : coords (tiles.foldl assignTile []) = coords tiles := by
  ext t
  constructor
  · rintro ⟨op, hop, rfl⟩
    have h := (find_tileID (mem_collect.1 hop)).1
    exact ⟨op, List.mem_reverse.1 h, rfl⟩
  · rintro ⟨op, hop, rfl⟩
    have hrev : op.tileID ∈ coords tiles.reverse := ⟨op, List.mem_reverse.2 hop, rfl⟩
    obtain ⟨op', hop'⟩ := (find_isSome op.tileID).2 hrev
    have hid := (find_tileID hop').2
    exact ⟨op', mem_collect.2 (by rw [hid, hop']), hid⟩

/-- A device once tiles were created in it: it has the tiles `T`, and tiles are found with the ids
they had. -/
structure Tiled (target : TargetModel) (d₀ d : Device δ) (T : Set TileID) : Prop where
  tiles : coords d.tiles = T
  ids : ∀ t, firstID target d.tiles t = firstID target d₀.tiles t

theorem Tiled.refl (d : Device δ) : Tiled target d d (coords d.tiles) := ⟨rfl, fun _ => rfl⟩

theorem Tiled.congr {T T' : Set TileID} (h : Tiled target d₀ d T) (hT : T = T')
    (htiles : d'.tiles = d.tiles) : Tiled target d₀ d' T' := by
  rw [← hT]
  exact ⟨htiles ▸ h.tiles, htiles ▸ h.ids⟩

theorem firstID_of_find {op : TileOp} (h : (tiles.find? fun op => op.tileID = t) = some op) :
    firstID target tiles t = controllerID target op := by
  unfold firstID
  rw [h]
  rfl

theorem Tiled.getOrCreate {T : Set TileID} (h : Tiled target d₀ d T) (t : TileID) :
    Tiled target d₀ (d.getOrCreate t).1 (T ∪ {t}) ∧ (d.getOrCreate t).2.tileID = t ∧
      controllerID target (d.getOrCreate t).2 = firstID target d₀.tiles t := by
  unfold Device.getOrCreate
  cases hfind : d.tiles.find? fun op => op.tileID = t with
  | some op =>
    refine ⟨⟨?_, h.ids⟩, (find_tileID hfind).2, ?_⟩
    · have ht : t ∈ T := by
        rw [← h.tiles]
        exact (find_isSome t).1 ⟨op, hfind⟩
      rw [h.tiles, Set.union_eq_self_of_subset_right (Set.singleton_subset_iff.2 ht)]
    · rw [← h.ids, firstID_of_find hfind]
  | none =>
    have hdefault : controllerID target { tileID := t } = firstID target d₀.tiles t := by
      rw [← h.ids]
      unfold firstID
      rw [hfind]
      rfl
    refine ⟨⟨?_, fun u => ?_⟩, rfl, hdefault⟩
    · rw [← h.tiles]
      ext u
      simp [coords, or_comm, eq_comm]
    · unfold firstID
      simp only [List.find?_cons]
      by_cases hu : t = u
      · subst hu
        rw [decide_eq_true rfl]
        exact hdefault
      · rw [decide_eq_false hu]
        exact h.ids u

theorem getOrCreate_same (d : Device δ) (t : TileID) :
    (d.getOrCreate t).1.packetFlows = d.packetFlows ∧ (d.getOrCreate t).1.symbols = d.symbols ∧
      (d.getOrCreate t).1.device = d.device := by
  unfold Device.getOrCreate
  cases d.tiles.find? fun op => op.tileID = t <;> exact ⟨rfl, rfl, rfl⟩

theorem Applied.getOrCreate {F : Set CtrlFlow} {A : Set ShimDMAAllocation}
    (h : Applied target d₀ d F A) (t : TileID) : Applied target d₀ (d.getOrCreate t).1 F A := by
  obtain ⟨hflows, hsymbols, hdevice⟩ := getOrCreate_same d t
  refine ⟨?_, ?_, ?_, h.requests, hdevice.trans h.device⟩
  · rw [← h.flows, Device.ctrlFlows, hflows, Device.ctrlFlows]
  · rw [← h.allocations, Device.ctrlAllocations, hsymbols, Device.ctrlAllocations]
  · rw [← h.names, Device.names, hsymbols, Device.names]

theorem getOrCreateRows_cons (col row : ℕ) (rows : List ℕ) (d : Device δ) :
    getOrCreateRows col (row :: rows) d =
      ((getOrCreateRows col rows (d.getOrCreate ⟨col, row⟩).1).1,
        (d.getOrCreate ⟨col, row⟩).2 ::
          (getOrCreateRows col rows (d.getOrCreate ⟨col, row⟩).1).2) := rfl

theorem Tiled.getOrCreateRows {T : Set TileID} {F : Set CtrlFlow} {A : Set ShimDMAAllocation}
    (h : Tiled target d₀ d T) (ha : Applied target d₀ d F A) (col : ℕ) (rows : List ℕ) :
    Tiled target d₀ (getOrCreateRows col rows d).1 (T ∪ {t | t.col = col ∧ t.row ∈ rows}) ∧
      Applied target d₀ (getOrCreateRows col rows d).1 F A ∧
      (getOrCreateRows col rows d).2.map (fun op => (op.tileID, controllerID target op)) =
        rows.map fun r => (⟨col, r⟩, firstID target d₀.tiles ⟨col, r⟩) := by
  induction rows generalizing d T with
  | nil => exact ⟨h.congr (by simp) rfl, ha, rfl⟩
  | cons row rows ih =>
    obtain ⟨h₁, hid, hctrl⟩ := h.getOrCreate ⟨col, row⟩
    obtain ⟨h₂, ha₂, hmap⟩ := ih h₁ (ha.getOrCreate ⟨col, row⟩)
    rw [getOrCreateRows_cons]
    refine ⟨h₂.congr ?_ rfl, ha₂, ?_⟩
    · rw [Set.union_assoc]
      congr 1
      ext t
      obtain ⟨c, r⟩ := t
      simp only [Set.mem_union, Set.mem_singleton_iff, TileID.mk.injEq, Set.mem_ofPred_eq,
        List.mem_cons]
      tauto
    · rw [List.map_cons, List.map_cons, hmap, hid, hctrl]

/-! ## One column -/

section Sets

variable (opts : Options) (target : TargetModel) (tokenTiles : List TileID) (tiles : List TileOp)
  (cols : List ℕ)

def responseFlows : Set CtrlFlow :=
  {x | ∃ t ∈ RespDom opts (coords tiles), t.col ∈ cols ∧
    routesResponse opts target tokenTiles t = true ∧
    x = responseFlow target (respID target opts tiles t) t}

def requestFlows : Set CtrlFlow :=
  {x | opts.routeShimDmaToTileCTRL = true ∧ ∃ t ∈ Cover opts (coords tiles), t.col ∈ cols ∧
    x = requestFlow target (firstID target tiles t) t}

def requestAllocations : Set ShimDMAAllocation :=
  {a | opts.routeShimDmaToTileCTRL = true ∧ ∃ t ∈ Cover opts (coords tiles), t.col ∈ cols ∧
    a = requestAllocation target t}

end Sets

/-- The map from coordinates to tiles has, in columns still to be covered, what was collected. -/
def Pending (d₀ : Device δ) (cols : List ℕ) (tiles : List TileOp) : Prop :=
  ∀ op, op.tileID.col ∈ cols → (op ∈ tiles ↔ op ∈ d₀.tiles.foldl assignTile [])

theorem mem_pending {col : ℕ} {cols : List ℕ} {id : ℕ} (h : Pending d₀ (col :: cols) tiles)
    (ht : t.col = col) :
    (∃ op ∈ tiles, op.tileID = t ∧ controllerID target op = id) ↔
      t ∈ coords d₀.tiles ∧ lastID target d₀.tiles t = id := by
  have hmem : ∀ op, op.tileID = t → (op ∈ tiles ↔
      (d₀.tiles.reverse.find? fun o => o.tileID = t) = some op) := by
    rintro op rfl
    rw [h op (ht ▸ List.mem_cons_self), mem_collect]
  constructor
  · rintro ⟨op, hop, hid, rfl⟩
    have hfind := (hmem op hid).1 hop
    refine ⟨⟨op, List.mem_reverse.1 (find_tileID hfind).1, hid⟩, ?_⟩
    unfold lastID
    rw [hfind]
    rfl
  · rintro ⟨⟨op, hop, hid⟩, rfl⟩
    have hrev : t ∈ coords d₀.tiles.reverse := ⟨op, List.mem_reverse.2 hop, hid⟩
    obtain ⟨op', hfind⟩ := (find_isSome t).2 hrev
    refine ⟨op', (hmem op' (find_tileID hfind).2).2 hfind, (find_tileID hfind).2, ?_⟩
    unfold lastID
    rw [hfind]
    rfl

theorem mem_withShim {col : ℕ} {cols : List ℕ} {shimTile : TileOp} {id : ℕ}
    (h : Pending d₀ (col :: cols) tiles) (hcol : InCols opts (coords d₀.tiles) col)
    (hshim : shimTile.tileID = ⟨col, 0⟩)
    (hctrl : controllerID target shimTile = firstID target d₀.tiles ⟨col, 0⟩) (ht : t.col = col) :
    (∃ op ∈ (if opts.routeShimDmaToTileCTRL then assignTile tiles shimTile else tiles),
        op.tileID = t ∧ controllerID target op = id) ↔
      t ∈ RespDom opts (coords d₀.tiles) ∧ respID target opts d₀.tiles t = id := by
  unfold RespDom respID
  by_cases hreq : opts.routeShimDmaToTileCTRL = true
  · rw [if_pos hreq]
    by_cases hrow : t.row = 0
    · have htshim : t = ⟨col, 0⟩ := by
        cases t
        simp_all
      rw [if_pos ⟨hreq, hrow⟩, htshim, ← hctrl]
      constructor
      · rintro ⟨op, hop, hid, rfl⟩
        rcases mem_assignTile.1 hop with rfl | ⟨_, hne⟩
        · exact ⟨.inr ⟨hreq, rfl, hcol⟩, rfl⟩
        · exact absurd (hid.trans hshim.symm) hne
      · rintro ⟨_, rfl⟩
        exact ⟨shimTile, mem_assignTile.2 (.inl rfl), hshim, rfl⟩
    · rw [if_neg fun hand => hrow hand.2]
      have hdom : (t ∈ coords d₀.tiles ∨ opts.routeShimDmaToTileCTRL = true ∧ t.row = 0 ∧
          InCols opts (coords d₀.tiles) t.col) ↔ t ∈ coords d₀.tiles :=
        or_iff_left fun hand => hrow hand.2.1
      rw [Set.mem_ofPred_eq, hdom, ← mem_pending h ht]
      refine exists_congr fun op => and_congr_left fun hand => ?_
      rw [mem_assignTile]
      constructor
      · rintro (rfl | ⟨hop, _⟩)
        · exact absurd (by rw [← hand.1, hshim]) hrow
        · exact hop
      · refine fun hop => .inr ⟨hop, fun heq => hrow ?_⟩
        rw [← hand.1, heq, hshim]
  · rw [if_neg hreq, if_neg fun hand => hreq hand.1, mem_pending h ht, Set.mem_ofPred_eq]
    exact and_congr_left' (or_iff_left fun hand => hreq hand.1).symm

/-- The tiles of a column after its shim tile was looked up. -/
structure ColumnTiles (opts : Options) (target : TargetModel) (d₀ : Device δ) (col : ℕ)
    (tiles : List TileOp) : Prop where
  mem : ∀ t id, t.col = col → ((∃ op ∈ tiles, op.tileID = t ∧ controllerID target op = id) ↔
    t ∈ RespDom opts (coords d₀.tiles) ∧ respID target opts d₀.tiles t = id)
  inCols : InCols opts (coords d₀.tiles) col

variable {F : Set CtrlFlow} {A : Set ShimDMAAllocation} {T : Set TileID} {col : ℕ}
  {shimTile : TileOp}

theorem flowSet_responses (h : ColumnTiles opts target d₀ col tiles) :
    flowSet (responseFlow target) target (tiles.filter fun t =>
        t.tileID.col = col && routesResponse opts target tokenTiles t.tileID) =
      responseFlows opts target tokenTiles d₀.tiles [col] := by
  ext x
  constructor
  · rintro ⟨op, hop, rfl⟩
    rw [List.mem_filter, Bool.and_eq_true, decide_eq_true_iff] at hop
    obtain ⟨hop, hcol, hroutes⟩ := hop
    obtain ⟨hdom, hid⟩ := (h.mem op.tileID _ hcol).1 ⟨op, hop, rfl, rfl⟩
    exact ⟨op.tileID, hdom, List.mem_singleton.2 hcol, hroutes, by rw [hid]⟩
  · rintro ⟨t, hdom, hcol, hroutes, rfl⟩
    have hcol := List.mem_singleton.1 hcol
    obtain ⟨op, hop, rfl, hid⟩ := (h.mem t _ hcol).2 ⟨hdom, rfl⟩
    refine ⟨op, List.mem_filter.2 ⟨hop, ?_⟩, by rw [hid]⟩
    rw [Bool.and_eq_true, decide_eq_true_iff]
    exact ⟨hcol, hroutes⟩

theorem coverResponses_adds (hshim : shimTile.tileID = ⟨col, 0⟩)
    (h : ColumnTiles opts target d₀ col tiles) (ha : Applied target d₀ d F A)
    (hrun : coverResponses opts target tokenTiles col shimTile tiles d = .ok d') :
    Applied target d₀ d' (F ∪ responseFlows opts target tokenTiles d₀.tiles [col]) A ∧
      d'.tiles = d.tiles := by
  unfold coverResponses at hrun
  by_cases hopt : opts.routeShimCTRLToTCT = .allTiles ∨ opts.routeShimCTRLToTCT = .shimOnly
  · rw [if_pos hopt] at hrun
    simp only at hrun
    rw [← flowSet_responses h]
    split at hrun
    next hempty =>
      cases hrun
      refine ⟨ha.congr ?_ rfl, rfl⟩
      rw [List.isEmpty_iff.1 hempty]
      simp [flowSet]
    next =>
      refine generateResponses hshim (fun op hop => ?_) ha hrun
      rw [List.mem_filter, Bool.and_eq_true, decide_eq_true_iff] at hop
      exact hop.2.1
  · rw [if_neg hopt] at hrun
    cases hrun
    refine ⟨ha.congr ?_ rfl, rfl⟩
    rw [eq_comm, Set.union_eq_left]
    rintro x ⟨t, _, _, hroutes, _⟩
    unfold routesResponse at hroutes
    cases hmode : opts.routeShimCTRLToTCT with
    | allTiles => exact absurd (.inl hmode) hopt
    | shimOnly => exact absurd (.inr hmode) hopt
    | disable =>
      rw [hmode] at hroutes
      cases hroutes

theorem le_requestRow (h : ColumnTiles opts target d₀ col tiles) (row : ℕ) :
    row ≤ (if ((d₀.tiles.foldl assignTile []).map fun t => t.tileID.col).contains col then
        maxRow (tiles.filter fun t => t.tileID.col = col)
      else maxRow (d₀.tiles.foldl assignTile [])) ↔ InRows (coords d₀.tiles) ⟨col, row⟩ := by
  have hdeclared : ((d₀.tiles.foldl assignTile []).map fun t => t.tileID.col).contains col = true ↔
      ∃ v ∈ coords d₀.tiles, v.col = col := by
    rw [List.contains_iff_mem, List.mem_map, ← coords_collect]
    constructor
    · rintro ⟨op, hop, rfl⟩
      exact ⟨op.tileID, ⟨op, hop, rfl⟩, rfl⟩
    · rintro ⟨_, ⟨op, hop, rfl⟩, rfl⟩
      exact ⟨op, hop, rfl⟩
  unfold InRows
  by_cases hcol : ∃ v ∈ coords d₀.tiles, v.col = col
  · rw [if_pos (hdeclared.2 hcol), le_maxRow]
    constructor
    · rintro (hrow | ⟨u, ⟨op, hop, rfl⟩, hle⟩)
      · exact .inl hrow
      · obtain ⟨hop, hopcol⟩ := List.mem_filter.1 hop
        have hopcol : op.tileID.col = col := by simpa using hopcol
        obtain ⟨hdom, _⟩ := (h.mem op.tileID _ hopcol).1 ⟨op, hop, rfl, rfl⟩
        rcases hdom with hmem | ⟨_, hrow, _⟩
        · exact .inr ⟨op.tileID, hmem, hle, .inl hopcol⟩
        · refine .inl ?_
          show row = 0
          omega
    · rintro (hrow | ⟨u, hu, hle, hucol | hnone⟩)
      · exact .inl hrow
      · obtain ⟨op, hop, hid, _⟩ := (h.mem u _ hucol).2 ⟨.inl hu, rfl⟩
        exact .inr ⟨u, ⟨op, List.mem_filter.2 ⟨hop, by simpa [hid] using hucol⟩, hid⟩, hle⟩
      · obtain ⟨v, hv, hvcol⟩ := hcol
        exact absurd hvcol (hnone v hv)
  · rw [if_neg fun hd => hcol (hdeclared.1 hd), le_maxRow, coords_collect]
    refine or_congr_right (exists_congr fun u => and_congr_right fun _ => ?_)
    refine (and_iff_left_of_imp fun _ => .inr fun v hv hvcol => ?_).symm
    exact hcol ⟨v, hv, hvcol⟩

theorem coverRequests_adds (hshim : shimTile.tileID = ⟨col, 0⟩)
    (h : ColumnTiles opts target d₀ col tiles) (ha : Applied target d₀ d F A)
    (ht : Tiled target d₀ d T) (hshimMem : (⟨col, 0⟩ : TileID) ∈ T) (hsub : coords d₀.tiles ⊆ T)
    (hrun : coverRequests opts target ((d₀.tiles.foldl assignTile []).map fun t => t.tileID.col)
      (maxRow (d₀.tiles.foldl assignTile [])) col shimTile tiles d = .ok d') :
    Applied target d₀ d' (F ∪ requestFlows opts target d₀.tiles [col])
        (A ∪ requestAllocations opts target d₀.tiles [col]) ∧
      Tiled target d₀ d' (T ∪ {t ∈ Cover opts (coords d₀.tiles) | t.col = col}) := by
  unfold coverRequests at hrun
  by_cases hreq : opts.routeShimDmaToTileCTRL = true
  · rw [if_pos hreq] at hrun
    simp only at hrun
    set row := if ((d₀.tiles.foldl assignTile []).map fun t => t.tileID.col).contains col then
        maxRow (tiles.filter fun t => t.tileID.col = col)
      else maxRow (d₀.tiles.foldl assignTile []) with hrow
    obtain ⟨ht₁, ha₁, hmap⟩ := ht.getOrCreateRows ha col (List.range (row + 1))
    have hcover : ∀ r, r ∈ List.range (row + 1) ↔
        (⟨col, r⟩ : TileID) ∈ Cover opts (coords d₀.tiles) := by
      intro r
      rw [List.mem_range, Nat.lt_succ_iff, hrow, le_requestRow h, mem_cover_of_requests hreq]
      exact (and_iff_right h.inCols).symm
    have hops : ∀ t id, (∃ op ∈ (getOrCreateRows col (List.range (row + 1)) d).2,
        op.tileID = t ∧ controllerID target op = id) ↔
        t ∈ Cover opts (coords d₀.tiles) ∧ t.col = col ∧ id = firstID target d₀.tiles t := by
      intro t id
      have : (∃ op ∈ (getOrCreateRows col (List.range (row + 1)) d).2,
          op.tileID = t ∧ controllerID target op = id) ↔
          (t, id) ∈ (getOrCreateRows col (List.range (row + 1)) d).2.map
            fun op => (op.tileID, controllerID target op) := by
        simp only [List.mem_map, Prod.mk.injEq]
      rw [this, hmap, List.mem_map]
      constructor
      · rintro ⟨r, hr, heq⟩
        cases heq
        exact ⟨(hcover r).1 hr, rfl, rfl⟩
      · rintro ⟨htc, rfl, rfl⟩
        exact ⟨t.row, (hcover t.row).2 htc, rfl⟩
    have hcols : ∀ op ∈ (getOrCreateRows col (List.range (row + 1)) d).2, op.tileID.col = col :=
      fun op hop => ((hops op.tileID _).1 ⟨op, hop, rfl, rfl⟩).2.1
    obtain ⟨ha₂, htiles⟩ := generateRequests hshim hcols ha₁ hrun
    refine ⟨ha₂.congr ?_ ?_, ht₁.congr ?_ htiles⟩
    · congr 1
      ext x
      constructor
      · rintro ⟨op, hop, rfl⟩
        obtain ⟨hc, hcol, hid⟩ := (hops op.tileID _).1 ⟨op, hop, rfl, rfl⟩
        exact ⟨hreq, op.tileID, hc, List.mem_singleton.2 hcol, by rw [hid]⟩
      · rintro ⟨_, t, hc, hcol, rfl⟩
        obtain ⟨op, hop, rfl, hid⟩ := (hops t _).2 ⟨hc, List.mem_singleton.1 hcol, rfl⟩
        exact ⟨op, hop, by rw [hid]⟩
    · congr 1
      ext a
      constructor
      · rintro ⟨op, hop, rfl⟩
        obtain ⟨hc, hcol, _⟩ := (hops op.tileID _).1 ⟨op, hop, rfl, rfl⟩
        exact ⟨hreq, op.tileID, hc, List.mem_singleton.2 hcol, rfl⟩
      · rintro ⟨_, t, hc, hcol, rfl⟩
        obtain ⟨op, hop, rfl, _⟩ := (hops t _).2 ⟨hc, List.mem_singleton.1 hcol, rfl⟩
        exact ⟨op, hop, rfl⟩
    · congr 1
      ext t
      obtain ⟨c, r⟩ := t
      constructor
      · rintro ⟨rfl, hr⟩
        exact ⟨(hcover r).1 hr, rfl⟩
      · rintro ⟨hc, rfl⟩
        exact ⟨rfl, (hcover r).2 hc⟩
  · rw [if_neg hreq] at hrun
    cases hrun
    refine ⟨ha.congr ?_ ?_, ht.congr ?_ rfl⟩
    · rw [eq_comm, Set.union_eq_left]
      exact fun x hx => absurd hx.1 hreq
    · rw [eq_comm, Set.union_eq_left]
      exact fun x hx => absurd hx.1 hreq
    · rw [eq_comm, Set.union_eq_left]
      rintro ⟨c, r⟩ ⟨⟨_, hmem | hrow | hand⟩, rfl⟩
      · exact hsub hmem
      · cases hrow
        exact hshimMem
      · exact absurd hand.1 hreq

/-! ## All columns -/

/-- What the overlay adds in some columns. -/
structure Covered (opts : Options) (target : TargetModel) (tokenTiles : List TileID)
    (d₀ d : Device δ) (cols : List ℕ) : Prop where
  applied : Applied target d₀ d
    (responseFlows opts target tokenTiles d₀.tiles cols ∪ requestFlows opts target d₀.tiles cols)
    (requestAllocations opts target d₀.tiles cols)
  tiled : Tiled target d₀ d
    (coords d₀.tiles ∪ {t ∈ Cover opts (coords d₀.tiles) | t.col ∈ cols})

theorem exists_snoc {P Q : TileID → Prop} (cols : List ℕ) (col : ℕ) :
    (∃ t, P t ∧ t.col ∈ cols ++ [col] ∧ Q t) ↔
      (∃ t, P t ∧ t.col ∈ cols ∧ Q t) ∨ ∃ t, P t ∧ t.col ∈ [col] ∧ Q t := by
  rw [← exists_or]
  refine exists_congr fun t => ?_
  rw [List.mem_append, or_and_right, and_or_left]

theorem responseFlows_snoc (cols : List ℕ) (col : ℕ) :
    responseFlows opts target tokenTiles tiles (cols ++ [col]) =
      responseFlows opts target tokenTiles tiles cols ∪
        responseFlows opts target tokenTiles tiles [col] := by
  ext x
  exact exists_snoc cols col

theorem requestFlows_snoc (cols : List ℕ) (col : ℕ) :
    requestFlows opts target tiles (cols ++ [col]) =
      requestFlows opts target tiles cols ∪ requestFlows opts target tiles [col] := by
  ext x
  exact (and_congr_right fun _ => exists_snoc cols col).trans and_or_left

theorem requestAllocations_snoc (cols : List ℕ) (col : ℕ) :
    requestAllocations opts target tiles (cols ++ [col]) =
      requestAllocations opts target tiles cols ∪ requestAllocations opts target tiles [col] := by
  ext x
  exact (and_congr_right fun _ => exists_snoc cols col).trans and_or_left

theorem coverColumn_adds {cols rest : List ℕ} {tiles' : List TileOp}
    (hpending : Pending d₀ (col :: rest) tiles) (hnot : col ∉ rest)
    (hcol : InCols opts (coords d₀.tiles) col) (h : Covered opts target tokenTiles d₀ d cols)
    (hrun : coverColumn opts target tokenTiles
      ((d₀.tiles.foldl assignTile []).map fun t => t.tileID.col)
      (maxRow (d₀.tiles.foldl assignTile [])) (d, tiles) col = .ok (d', tiles')) :
    Pending d₀ rest tiles' ∧ Covered opts target tokenTiles d₀ d' (cols ++ [col]) := by
  unfold coverColumn at hrun
  obtain ⟨htiled, hshim, hctrl⟩ := h.tiled.getOrCreate ⟨col, 0⟩
  have happlied := h.applied.getOrCreate ⟨col, 0⟩
  simp only at hrun
  set withShim := if opts.routeShimDmaToTileCTRL then
    assignTile tiles (d.getOrCreate ⟨col, 0⟩).2 else tiles with hwithShim
  have hcolumn : ColumnTiles opts target d₀ col withShim :=
    ⟨fun t id ht => mem_withShim hpending hcol hshim hctrl ht, hcol⟩
  cases hresp : coverResponses opts target tokenTiles col (d.getOrCreate ⟨col, 0⟩).2 withShim
      (d.getOrCreate ⟨col, 0⟩).1 with
  | error e =>
    rw [hresp] at hrun
    cases hrun
  | ok d₁ =>
    obtain ⟨ha₁, htiles₁⟩ := coverResponses_adds hshim hcolumn happlied hresp
    have ht₁ := htiled.congr rfl htiles₁
    rw [hresp] at hrun
    cases hreq : coverRequests opts target
        ((d₀.tiles.foldl assignTile []).map fun t => t.tileID.col)
        (maxRow (d₀.tiles.foldl assignTile [])) col (d.getOrCreate ⟨col, 0⟩).2 withShim d₁ with
    | error e =>
      simp only [bind, Except.bind, hreq] at hrun
      cases hrun
    | ok d₂ =>
      simp only [bind, Except.bind, hreq] at hrun
      obtain ⟨rfl, htiles⟩ := Prod.mk.injEq _ _ _ _ ▸ Except.ok.inj hrun
      obtain ⟨ha₂, ht₂⟩ := coverRequests_adds hshim hcolumn ha₁ ht₁
        (.inr rfl) (fun t ht => .inl (.inl ht)) hreq
      refine ⟨fun op hop => ?_, ⟨ha₂.congr ?_ ?_, ht₂.congr ?_ rfl⟩⟩
      · have hne : op.tileID.col ≠ col := fun heq => hnot (heq ▸ hop)
        rw [← hpending op (List.mem_cons_of_mem col hop), ← htiles, hwithShim]
        split
        next =>
          rw [mem_assignTile, hshim]
          constructor
          · rintro (rfl | ⟨hmem, _⟩)
            · exact absurd (congrArg TileID.col hshim) hne
            · exact hmem
          · exact fun hmem => .inr ⟨hmem, fun heq => hne (congrArg TileID.col heq)⟩
        next => rfl
      · rw [responseFlows_snoc, requestFlows_snoc]
        ac_rfl
      · rw [requestAllocations_snoc]
      · ext t
        have hshimCover : (⟨col, 0⟩ : TileID) ∈ Cover opts (coords d₀.tiles) :=
          ⟨hcol, .inr (.inl rfl)⟩
        simp only [Set.mem_union, Set.mem_ofPred_eq, Set.mem_singleton_iff, List.mem_append,
          List.mem_singleton]
        constructor
        · rintro (((hmem | ⟨hc, hcols⟩) | rfl) | ⟨hc, rfl⟩)
          · exact .inl hmem
          · exact .inr ⟨hc, .inl hcols⟩
          · exact .inr ⟨hshimCover, .inr rfl⟩
          · exact .inr ⟨hc, .inr rfl⟩
        · rintro (hmem | ⟨hc, hcols | rfl⟩)
          · exact .inl (.inl (.inl hmem))
          · exact .inl (.inl (.inr ⟨hc, hcols⟩))
          · exact .inr ⟨hc, rfl⟩

theorem coverColumns_adds {cols rest : List ℕ} {tiles' : List TileOp}
    (hpending : Pending d₀ rest tiles) (hnodup : rest.Nodup)
    (hcol : ∀ col ∈ rest, InCols opts (coords d₀.tiles) col)
    (h : Covered opts target tokenTiles d₀ d cols)
    (hrun : rest.foldlM (coverColumn opts target tokenTiles
      ((d₀.tiles.foldl assignTile []).map fun t => t.tileID.col)
      (maxRow (d₀.tiles.foldl assignTile []))) (d, tiles) = .ok (d', tiles')) :
    Covered opts target tokenTiles d₀ d' (cols ++ rest) := by
  induction rest generalizing d tiles cols with
  | nil =>
    cases hrun
    rwa [List.append_nil]
  | cons col rest ih =>
    rw [List.foldlM_cons] at hrun
    obtain ⟨hnot, hnodup⟩ := List.nodup_cons.1 hnodup
    cases hstep : coverColumn opts target tokenTiles
        ((d₀.tiles.foldl assignTile []).map fun t => t.tileID.col)
        (maxRow (d₀.tiles.foldl assignTile [])) (d, tiles) col with
    | error e =>
      rw [hstep] at hrun
      cases hrun
    | ok state =>
      rw [hstep] at hrun
      obtain ⟨hp, hc⟩ := coverColumn_adds hpending hnot (hcol col List.mem_cons_self) h hstep
      have hih := ih hp hnodup (fun c hc' => hcol c (List.mem_cons_of_mem col hc')) hc hrun
      rwa [List.append_assoc, List.singleton_append] at hih

/-! ## A device -/

/-- **What the overlay adds to a device**: its responses, its requests with their allocations, and
the tiles they cover. -/
structure Overlaid (opts : Options) (target : TargetModel) (tokenTiles : List TileID)
    (d₀ d : Device δ) : Prop where
  flows : ∀ x, x ∈ d.ctrlFlows ↔ x ∈ d₀.ctrlFlows ∨
    (∃ t ∈ RespDom opts (coords d₀.tiles), routesResponse opts target tokenTiles t = true ∧
      x = responseFlow target (respID target opts d₀.tiles t) t) ∨
    (opts.routeShimDmaToTileCTRL = true ∧ ∃ t ∈ Cover opts (coords d₀.tiles),
      x = requestFlow target (firstID target d₀.tiles t) t)
  allocations : ∀ a, a ∈ d.ctrlAllocations ↔ a ∈ d₀.ctrlAllocations ∨
    (opts.routeShimDmaToTileCTRL = true ∧ ∃ t ∈ Cover opts (coords d₀.tiles),
      a = requestAllocation target t) ∧ a.symName ∉ d₀.names
  tiles : coords d.tiles = Cover opts (coords d₀.tiles)
  ids : ∀ t, firstID target d.tiles t = firstID target d₀.tiles t
  device : d.device = d₀.device

theorem applyOverlayToDevice_overlaid (htarget : target.isAIE1 = false)
    (hrun : applyOverlayToDevice opts target tokenTiles d₀ = .ok d) :
    Overlaid opts target tokenTiles d₀ d := by
  unfold applyOverlayToDevice at hrun
  rw [htarget, if_neg Bool.false_ne_true] at hrun
  simp only at hrun
  cases hfold : (colsToCover opts (d₀.tiles.foldl assignTile [])).foldlM
      (coverColumn opts target tokenTiles
        ((d₀.tiles.foldl assignTile []).map fun t => t.tileID.col)
        (maxRow (d₀.tiles.foldl assignTile []))) (d₀, d₀.tiles.foldl assignTile []) with
  | error e =>
    rw [hfold] at hrun
    cases hrun
  | ok state =>
    rw [hfold] at hrun
    cases hrun
    have hcols : ∀ c, c ∈ colsToCover opts (d₀.tiles.foldl assignTile []) ↔
        InCols opts (coords d₀.tiles) c := by
      intro c
      rw [mem_colsToCover, coords_collect]
    have hnil : Covered opts target tokenTiles d₀ d₀ [] := by
      refine ⟨(Applied.refl target d₀).congr ?_ ?_, (Tiled.refl d₀).congr ?_ rfl⟩
      · simp [responseFlows, requestFlows]
      · simp [requestAllocations]
      · simp
    have h := coverColumns_adds (fun op _ => Iff.rfl) (nodup_colsToCover _)
      (fun c hc => (hcols c).1 hc) hnil hfold
    rw [List.nil_append] at h
    have hinResp : ∀ t ∈ RespDom opts (coords d₀.tiles),
        t.col ∈ colsToCover opts (d₀.tiles.foldl assignTile []) := fun t ht =>
      (hcols _).2 (respDom_subset_cover ht).1
    have hinCover : ∀ t ∈ Cover opts (coords d₀.tiles),
        t.col ∈ colsToCover opts (d₀.tiles.foldl assignTile []) := fun t ht => (hcols _).2 ht.1
    refine ⟨fun x => ?_, fun a => ?_, ?_, h.tiled.ids, h.applied.device⟩
    · rw [h.applied.flows]
      refine or_congr_right (or_congr ?_ (and_congr_right fun _ => ?_))
      · exact exists_congr fun t => and_congr_right fun ht =>
          and_iff_right (hinResp t ht)
      · exact exists_congr fun t => and_congr_right fun ht =>
          and_iff_right (hinCover t ht)
    · rw [h.applied.allocations]
      refine or_congr_right (and_congr_left fun _ => and_congr_right fun _ => ?_)
      exact exists_congr fun t => and_congr_right fun ht => and_iff_right (hinCover t ht)
    · rw [h.tiled.tiles]
      refine Set.Subset.antisymm ?_ fun t ht => .inr ⟨ht, hinCover t ht⟩
      rintro t (ht | ht)
      · exact subset_cover ht
      · exact ht.1

end MlirAie.CtrlOverlay
