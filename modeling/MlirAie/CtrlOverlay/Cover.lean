import MlirAie.CtrlOverlay.Pass
import MlirAie.Lib.Extremes

/-!
# The tiles a column control overlay covers

* `Cover`: the tiles a device has once the overlay is applied; covering twice adds none
  (`cover_cover`);
* `firstID`, `lastID`: the controller id of a tile, where its operation is looked up from the
  front, and where the last one is kept;
* `mem_colsToCover`, `le_maxRow`: the columns and rows the pass covers.
-/

namespace MlirAie.CtrlOverlay

open Route Lib

/-! ## Covered tiles -/

def coords (tiles : List TileOp) : Set TileID := {t | ∃ op ∈ tiles, op.tileID = t}

@[grind =] def InCols (opts : Options) (S : Set TileID) (col : ℕ) : Prop :=
  if opts.routeShimDmaToTileCTRL then ∃ a ∈ S, ∃ b ∈ S, a.col ≤ col ∧ col ≤ b.col
  else ∃ a ∈ S, a.col = col

/-- The rows requests reach in a column: up to its highest tile, or where it has none, up to the
highest tile there is. -/
def InRows (S : Set TileID) (t : TileID) : Prop :=
  t.row = 0 ∨ ∃ u ∈ S, t.row ≤ u.row ∧ (u.col = t.col ∨ ∀ v ∈ S, v.col ≠ t.col)

/-- The tiles that exist once the overlay is applied around some tiles. -/
def Cover (opts : Options) (S : Set TileID) : Set TileID :=
  {t | InCols opts S t.col ∧
    (t ∈ S ∨ t.row = 0 ∨ (opts.routeShimDmaToTileCTRL = true ∧ InRows S t))}

/-- The tiles a response can be routed from. -/
def RespDom (opts : Options) (S : Set TileID) : Set TileID :=
  {t | t ∈ S ∨ (opts.routeShimDmaToTileCTRL = true ∧ t.row = 0 ∧ InCols opts S t.col)}

variable {opts : Options} {S : Set TileID} {t : TileID}

theorem inCols_of_mem (h : t ∈ S) : InCols opts S t.col := by
  unfold InCols
  by_cases hreq : opts.routeShimDmaToTileCTRL = true
  · rw [if_pos hreq]
    exact ⟨t, h, t, h, le_rfl, le_rfl⟩
  · rw [if_neg hreq]
    exact ⟨t, h, rfl⟩

theorem subset_cover : S ⊆ Cover opts S := fun _ h => ⟨inCols_of_mem h, .inl h⟩

theorem respDom_subset_cover : RespDom opts S ⊆ Cover opts S := by
  rintro t (h | ⟨_, hrow, hcol⟩)
  · exact subset_cover h
  · exact ⟨hcol, .inr (.inl hrow)⟩

theorem mem_cover_of_requests (hreq : opts.routeShimDmaToTileCTRL = true) :
    t ∈ Cover opts S ↔ InCols opts S t.col ∧ InRows S t := by
  constructor
  · rintro ⟨hcol, h | h | ⟨_, h⟩⟩
    · exact ⟨hcol, .inr ⟨t, h, le_rfl, .inl rfl⟩⟩
    · exact ⟨hcol, .inl h⟩
    · exact ⟨hcol, h⟩
  · rintro ⟨hcol, h⟩
    exact ⟨hcol, .inr (.inr ⟨hreq, h⟩)⟩

theorem inCols_cover {col : ℕ} : InCols opts (Cover opts S) col ↔ InCols opts S col := by
  constructor
  · intro h
    unfold InCols at h
    by_cases hreq : opts.routeShimDmaToTileCTRL = true
    · rw [if_pos hreq] at h
      obtain ⟨a, ha, b, hb, hac, hbc⟩ := h
      have ha := ha.1
      have hb := hb.1
      unfold InCols at ha hb ⊢
      rw [if_pos hreq] at ha hb ⊢
      obtain ⟨a', ha', _, _, hle, _⟩ := ha
      obtain ⟨_, _, b', hb', _, hle'⟩ := hb
      exact ⟨a', ha', b', hb', by omega, by omega⟩
    · rw [if_neg hreq] at h
      obtain ⟨a, ha, rfl⟩ := h
      exact ha.1
  · intro h
    exact inCols_of_mem (t := ⟨col, 0⟩) ⟨h, .inr (.inl rfl)⟩

/-- **Covering twice adds no tiles.** -/
theorem cover_cover : Cover opts (Cover opts S) = Cover opts S := by
  refine Set.Subset.antisymm ?_ subset_cover
  rintro t ⟨hcol, h | h | ⟨hreq, h⟩⟩
  · exact h
  · exact ⟨inCols_cover.1 hcol, .inr (.inl h)⟩
  · refine ⟨inCols_cover.1 hcol, .inr (.inr ⟨hreq, ?_⟩)⟩
    rcases h with h | ⟨u, hu, hle, hucol⟩
    · exact .inl h
    · -- the column of `t` is covered, so it is not empty after covering
      have hcovered : (⟨t.col, 0⟩ : TileID) ∈ Cover opts S :=
        ⟨inCols_cover.1 hcol, .inr (.inl rfl)⟩
      have hucol : u.col = t.col := by
        rcases hucol with hucol | hnone
        · exact hucol
        · exact absurd (show (⟨t.col, 0⟩ : TileID).col = t.col from rfl) (hnone _ hcovered)
      rcases (mem_cover_of_requests hreq).1 hu with ⟨_, hrow | ⟨w, hw, hwrow, hwcol⟩⟩
      · exact .inl (by omega)
      · refine .inr ⟨w, hw, hle.trans hwrow, ?_⟩
        rw [← hucol]
        exact hwcol

theorem respDom_cover : RespDom opts (Cover opts S) = Cover opts S := by
  refine Set.Subset.antisymm ?_ fun t h => .inl h
  intro t h
  rw [← cover_cover]
  exact respDom_subset_cover h

/-! ## Controller ids -/

section Ids

variable (target : TargetModel)

/-- The controller id of the operation found for a tile, or of one created. -/
def foundID (found : Option TileOp) (t : TileID) : ℕ :=
  match found with
  | some op => controllerID target op
  | none => target.tileToControllerId t

def firstID (tiles : List TileOp) (t : TileID) : ℕ :=
  foundID target (tiles.find? fun op => op.tileID = t) t

def lastID (tiles : List TileOp) (t : TileID) : ℕ :=
  foundID target (tiles.reverse.find? fun op => op.tileID = t) t

/-- The controller id a response is sent with: with requests, a shim tile is looked up again. -/
def respID (opts : Options) (tiles : List TileOp) (t : TileID) : ℕ :=
  if opts.routeShimDmaToTileCTRL = true ∧ t.row = 0 then firstID target tiles t
  else lastID target tiles t

end Ids

/-! ## Columns and rows -/

theorem mem_colsToCover (tiles : List TileOp) (col : ℕ) :
    col ∈ colsToCover opts tiles ↔ InCols opts (coords tiles) col := by
  unfold colsToCover InCols
  have hmem : ∀ c, c ∈ tiles.map (fun t => t.tileID.col) ↔ ∃ a ∈ coords tiles, a.col = c := by
    intro c
    rw [List.mem_map]
    constructor
    · rintro ⟨op, hop, rfl⟩
      exact ⟨op.tileID, ⟨op, hop, rfl⟩, rfl⟩
    · rintro ⟨_, ⟨op, hop, rfl⟩, rfl⟩
      exact ⟨op, hop, rfl⟩
  by_cases hreq : opts.routeShimDmaToTileCTRL = true
  · simp only [if_pos hreq]
    cases hcols : tiles.map (fun t => t.tileID.col) with
    | nil =>
      rw [hcols] at hmem
      refine iff_of_false List.not_mem_nil ?_
      rintro ⟨a, ha, _⟩
      exact List.not_mem_nil ((hmem a.col).2 ⟨a, ha, rfl⟩)
    | cons c cols =>
      rw [hcols] at hmem
      obtain ⟨hmin, hmins⟩ := foldl_min_le c cols
      obtain ⟨hmax, hmaxs⟩ := le_foldl_max c cols
      have hminle : ∀ x ∈ c :: cols, cols.foldl min c ≤ x := by
        simpa using ⟨hmin, hmins⟩
      have hmaxle : ∀ x ∈ c :: cols, x ≤ cols.foldl max c := by
        simpa using ⟨hmax, hmaxs⟩
      rw [List.mem_range'_1]
      constructor
      · rintro ⟨hle, hlt⟩
        obtain ⟨a, ha, hacol⟩ := (hmem _).1 (foldl_min_mem c cols)
        obtain ⟨b, hb, hbcol⟩ := (hmem _).1 (foldl_max_mem c cols)
        exact ⟨a, ha, b, hb, by omega, by omega⟩
      · rintro ⟨a, ha, b, hb, hac, hbc⟩
        have ha' := hminle _ ((hmem a.col).2 ⟨a, ha, rfl⟩)
        have hb' := hmaxle _ ((hmem b.col).2 ⟨b, hb, rfl⟩)
        omega
  · simp only [if_neg hreq]
    rw [List.mem_dedup, hmem]

theorem nodup_colsToCover (tiles : List TileOp) : (colsToCover opts tiles).Nodup := by
  unfold colsToCover
  by_cases hreq : opts.routeShimDmaToTileCTRL = true
  · simp only [if_pos hreq]
    cases tiles.map (fun t => t.tileID.col) with
    | nil => exact List.nodup_nil
    | cons c cols => exact List.nodup_range'
  · simp only [if_neg hreq]
    exact List.nodup_dedup _

theorem le_maxRow {tiles : List TileOp} {r : ℕ} :
    r ≤ maxRow tiles ↔ r = 0 ∨ ∃ u ∈ coords tiles, r ≤ u.row := by
  unfold maxRow
  constructor
  · intro h
    rcases List.mem_cons.1 (foldl_max_mem 0 (tiles.map fun t => t.tileID.row)) with hmax | hmax
    · exact .inl (by omega)
    · obtain ⟨op, hop, hrow⟩ := List.mem_map.1 hmax
      exact .inr ⟨op.tileID, ⟨op, hop, rfl⟩, by omega⟩
  · rintro (rfl | ⟨_, ⟨op, hop, rfl⟩, h⟩)
    · exact Nat.zero_le _
    · exact h.trans ((le_foldl_max 0 _).2 _ (List.mem_map_of_mem hop))

end MlirAie.CtrlOverlay
