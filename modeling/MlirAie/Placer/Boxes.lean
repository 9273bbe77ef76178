import MlirAie.Lib.Extremes
import MlirAie.Placer.Design

/-!
# Bounding boxes of nets

* `NetBoundingBox`, `netBox`: the box of a net, computed at once;
* **`evaluateMove_boxes`**, **`evaluateMove_delta`**: evaluating a move gives the boxes of the new
  placement, and what the wire length changes by;
* **`revertMove_evaluateMove`**: the boxes that reverting leaves.
-/

namespace MlirAie.Placer

open MlirAie.Lib

structure NetBoundingBox where
  minCol : ℤ := 0
  maxCol : ℤ := 0
  minRow : ℤ := 0
  maxRow : ℤ := 0
  countAtMinCol : ℤ := 0
  countAtMaxCol : ℤ := 0
  countAtMinRow : ℤ := 0
  countAtMaxRow : ℤ := 0
deriving DecidableEq, Repr

namespace NetBoundingBox

/-- The box with one more position. -/
def extend (bb : NetBoundingBox) (pos : TileID) : NetBoundingBox :=
  let minCol := track (· < ·) (bb.minCol, bb.countAtMinCol) pos.col
  let maxCol := track (· > ·) (bb.maxCol, bb.countAtMaxCol) pos.col
  let minRow := track (· < ·) (bb.minRow, bb.countAtMinRow) pos.row
  let maxRow := track (· > ·) (bb.maxRow, bb.countAtMaxRow) pos.row
  { minCol := minCol.1, maxCol := maxCol.1, minRow := minRow.1, maxRow := maxRow.1
    countAtMinCol := minCol.2, countAtMaxCol := maxCol.2
    countAtMinRow := minRow.2, countAtMaxRow := maxRow.2 }

def single (pos : TileID) : NetBoundingBox :=
  { minCol := pos.col, maxCol := pos.col, minRow := pos.row, maxRow := pos.row
    countAtMinCol := 1, countAtMaxCol := 1, countAtMinRow := 1, countAtMaxRow := 1 }

/-- The box that a recomputation starts from, at `INT_MAX` and `INT_MIN`. -/
def unset : NetBoundingBox :=
  { minCol := 2 ^ 31 - 1, maxCol := -2 ^ 31, minRow := 2 ^ 31 - 1, maxRow := -2 ^ 31 }

end NetBoundingBox

/-- `currentPlacement[tile]`, the origin for a tile without a position. -/
def posAt (placement : Placement) (tile : ℕ) : TileID := (placement tile).getD ⟨0, 0⟩

/-- The box of a net, as `initBoundingBoxes` computes it. -/
def netBox (placement : Placement) (net : NetInfo) : NetBoundingBox :=
  match net.endpoints with
  | [] => {}
  | first :: rest =>
    rest.foldl (fun bb ep => bb.extend (posAt placement ep)) (.single (posAt placement first))

/-- The box of a net where a tile is at a new position, as `evaluateMove` computes it. -/
def movedBox (placement : Placement) (tile : ℕ) (newPos : TileID) (net : NetInfo) :
    NetBoundingBox :=
  net.endpoints.foldl
    (fun bb ep => bb.extend (if ep = tile then newPos else posAt placement ep)) .unset

def computeNetHPWL (net : NetInfo) (bb : NetBoundingBox) : ℤ :=
  let spanCol := bb.maxCol - bb.minCol
  let spanRow := bb.maxRow - bb.minRow
  let hpwl := spanCol + spanRow
  (if net.isMulticast then hpwl * SAConfig.multicastMultiplier else hpwl) + spanCol * spanRow

abbrev Boxes := ℕ → NetBoundingBox

namespace Design

variable (d : Design)

def computeTotalHPWL (boxes : Boxes) : ℤ :=
  ∑ netIdx ∈ Finset.range d.nets.length, computeNetHPWL (d.net netIdx) (boxes netIdx)

/-- What `evaluateMove` changes: the boxes, the cost so far, and the backups. -/
structure Evaluation where
  boxes : Boxes
  deltaCost : ℤ := 0
  backups : List (ℕ × NetBoundingBox) := []

def evaluateNet (placement : Placement) (tile : ℕ) (newPos : TileID) (r : Evaluation)
    (netIdx : ℕ) : Evaluation :=
  let bb := movedBox placement tile newPos (d.net netIdx)
  { boxes := Function.update r.boxes netIdx bb
    deltaCost := r.deltaCost +
      (computeNetHPWL (d.net netIdx) bb - computeNetHPWL (d.net netIdx) (r.boxes netIdx))
    backups := r.backups ++ [(netIdx, r.boxes netIdx)] }

def evaluateMove (placement : Placement) (tile : ℕ) (newPos : TileID) (boxes : Boxes) :
    Evaluation :=
  (d.tileToNetIndices tile).foldl (d.evaluateNet placement tile newPos) { boxes }

end Design

def revertMove (backups : List (ℕ × NetBoundingBox)) (boxes : Boxes) : Boxes :=
  backups.foldl (fun boxes b => Function.update boxes b.1 b.2) boxes

/-! ## Boxes of lists of positions -/

/-- The coordinates are numbers that an `int` holds. -/
def TileID.IsInt (pos : TileID) : Prop :=
  (-2 ^ 31 ≤ pos.col ∧ pos.col < 2 ^ 31) ∧ -2 ^ 31 ≤ pos.row ∧ pos.row < 2 ^ 31

namespace NetBoundingBox

/-- `bb` is the box of the positions, with the number of them at each of its sides. -/
structure IsBox (ps : List TileID) (bb : NetBoundingBox) : Prop where
  minCol : IsExtreme (· < ·) (ps.map TileID.col) (bb.minCol, bb.countAtMinCol)
  maxCol : IsExtreme (· > ·) (ps.map TileID.col) (bb.maxCol, bb.countAtMaxCol)
  minRow : IsExtreme (· < ·) (ps.map TileID.row) (bb.minRow, bb.countAtMinRow)
  maxRow : IsExtreme (· > ·) (ps.map TileID.row) (bb.maxRow, bb.countAtMaxRow)

variable {ps : List TileID} {bb bb' : NetBoundingBox} {pos : TileID}

theorem IsBox.unique (h : IsBox ps bb) (h' : IsBox ps bb') : bb = bb' := by
  have hlt : ∀ x y : ℤ, ¬x < y → ¬y < x → x = y := fun x y hxy hyx => by omega
  have hgt : ∀ x y : ℤ, ¬x > y → ¬y > x → x = y := fun x y hxy hyx => by omega
  have h₁ := Prod.mk.inj (h.minCol.unique hlt h'.minCol)
  have h₂ := Prod.mk.inj (h.maxCol.unique hgt h'.maxCol)
  have h₃ := Prod.mk.inj (h.minRow.unique hlt h'.minRow)
  have h₄ := Prod.mk.inj (h.maxRow.unique hgt h'.maxRow)
  cases bb
  cases bb'
  simp only [mk.injEq]
  exact ⟨h₁.1, h₂.1, h₃.1, h₄.1, h₁.2, h₂.2, h₃.2, h₄.2⟩

/-- The four sides are tracked apart from each other. -/
theorem foldl_extend (ps : List TileID) (bb : NetBoundingBox) :
    let bb' := ps.foldl extend bb
    (bb'.minCol, bb'.countAtMinCol) =
        (ps.map TileID.col).foldl (track (· < ·)) (bb.minCol, bb.countAtMinCol) ∧
      (bb'.maxCol, bb'.countAtMaxCol) =
        (ps.map TileID.col).foldl (track (· > ·)) (bb.maxCol, bb.countAtMaxCol) ∧
      (bb'.minRow, bb'.countAtMinRow) =
        (ps.map TileID.row).foldl (track (· < ·)) (bb.minRow, bb.countAtMinRow) ∧
      (bb'.maxRow, bb'.countAtMaxRow) =
        (ps.map TileID.row).foldl (track (· > ·)) (bb.maxRow, bb.countAtMaxRow) := by
  induction ps generalizing bb with
  | nil => exact ⟨rfl, rfl, rfl, rfl⟩
  | cons pos ps ih => exact ih (bb.extend pos)

theorem isBox_foldl (pos : TileID) (ps : List TileID) :
    IsBox (pos :: ps) (ps.foldl extend (single pos)) ∧
      (pos.IsInt → IsBox (pos :: ps) ((pos :: ps).foldl extend unset)) := by
  have hlt := @isExtreme_foldl ℤ (· < ·) _ _ (fun _ _ _ => lt_trans) lt_irrefl
  have hgt := @isExtreme_foldl ℤ (· > ·) _ _ (fun _ _ _ h h' => lt_trans h' h) lt_irrefl
  constructor
  · obtain ⟨h₁, h₂, h₃, h₄⟩ := foldl_extend ps (single pos)
    exact ⟨h₁ ▸ (hlt pos.col _).1, h₂ ▸ (hgt pos.col _).1, h₃ ▸ (hlt pos.row _).1,
      h₄ ▸ (hgt pos.row _).1⟩
  · rintro ⟨⟨hcol, hcol'⟩, hrow, hrow'⟩
    obtain ⟨h₁, h₂, h₃, h₄⟩ := foldl_extend (pos :: ps) unset
    refine ⟨h₁ ▸ (hlt pos.col _).2 _ ?_, h₂ ▸ (hgt pos.col _).2 _ ?_,
      h₃ ▸ (hlt pos.row _).2 _ ?_, h₄ ▸ (hgt pos.row _).2 _ ?_⟩
    · show pos.col < 2 ^ 31 - 1 ∨ pos.col = 2 ^ 31 - 1
      omega
    · show pos.col > -2 ^ 31 ∨ pos.col = -2 ^ 31
      omega
    · show pos.row < 2 ^ 31 - 1 ∨ pos.row = 2 ^ 31 - 1
      omega
    · show pos.row > -2 ^ 31 ∨ pos.row = -2 ^ 31
      omega

end NetBoundingBox

/-! ## Boxes of nets -/

variable {placement : Placement} {tile : ℕ} {newPos : TileID} {net : NetInfo}

theorem netBox_isBox (hends : net.endpoints ≠ []) :
    NetBoundingBox.IsBox (net.endpoints.map (posAt placement)) (netBox placement net) := by
  unfold netBox
  cases h : net.endpoints with
  | nil => exact absurd h hends
  | cons first rest =>
    have hbox := (NetBoundingBox.isBox_foldl (posAt placement first)
      (rest.map (posAt placement))).1
    rwa [List.foldl_map] at hbox

theorem posAt_update (ep : ℕ) :
    posAt (Function.update placement tile (some newPos)) ep =
      if ep = tile then newPos else posAt placement ep := by
  unfold posAt
  by_cases h : ep = tile
  · subst h
    rw [Function.update_self, if_pos rfl]
    rfl
  · rw [Function.update_of_ne h, if_neg h]

theorem movedBox_eq (hends : net.endpoints ≠ [])
    (hint : ∀ ep ∈ net.endpoints,
      (posAt (Function.update placement tile (some newPos)) ep).IsInt) :
    movedBox placement tile newPos net =
      netBox (Function.update placement tile (some newPos)) net := by
  have hmoved : movedBox placement tile newPos net =
      (net.endpoints.map (posAt (Function.update placement tile (some newPos)))).foldl
        NetBoundingBox.extend .unset := by
    unfold movedBox
    rw [List.foldl_map]
    simp only [posAt_update]
  have hbox := @netBox_isBox (Function.update placement tile (some newPos)) net hends
  refine NetBoundingBox.IsBox.unique ?_ hbox
  rw [hmoved]
  cases h : net.endpoints with
  | nil => exact absurd h hends
  | cons first rest =>
    exact (NetBoundingBox.isBox_foldl _ _).2 (hint first (by rw [h]; exact List.mem_cons_self))

theorem posAt_update_of_not_mem (h : tile ∉ net.endpoints) (pos : Option TileID) :
    ∀ ep ∈ net.endpoints, posAt (Function.update placement tile pos) ep = posAt placement ep := by
  intro ep hep
  unfold posAt
  rw [Function.update_of_ne (fun he => h (by rwa [← he]))]

theorem movedBox_update_of_not_mem (h : tile ∉ net.endpoints) (pos : Option TileID)
    (other : ℕ) (pos' : TileID) :
    movedBox (Function.update placement tile pos) other pos' net =
      movedBox placement other pos' net := by
  unfold movedBox
  exact List.foldl_ext _ _ _ fun bb ep hep => by rw [posAt_update_of_not_mem h pos ep hep]

theorem netBox_update_of_not_mem (h : tile ∉ net.endpoints) (pos : Option TileID) :
    netBox (Function.update placement tile pos) net = netBox placement net := by
  have heq := @posAt_update_of_not_mem placement tile net h pos
  unfold netBox
  cases hends : net.endpoints with
  | nil => rfl
  | cons first rest =>
    rw [hends] at heq
    simp only
    rw [heq first List.mem_cons_self]
    exact List.foldl_ext _ _ _ fun bb ep hep => by rw [heq ep (List.mem_cons_of_mem _ hep)]

/-! ## Evaluating a move -/

namespace Design

variable (d : Design) (placement tile newPos)

theorem two_le_endpoints {netIdx : ℕ} (h : netIdx < d.nets.length) :
    2 ≤ (d.net netIdx).endpoints.length := by
  have hmem : d.net netIdx ∈ d.nets := by
    unfold net
    rw [List.getD_eq_getElem _ _ h]
    exact List.getElem_mem h
  simpa using (List.mem_filter.1 hmem).2

theorem endpoints_ne_nil {netIdx : ℕ} (h : netIdx < d.nets.length) :
    (d.net netIdx).endpoints ≠ [] := by
  intro hnil
  have hlen := d.two_le_endpoints h
  rw [hnil] at hlen
  cases hlen

theorem mem_tileToNetIndices {netIdx : ℕ} :
    netIdx ∈ d.tileToNetIndices tile ↔
      netIdx < d.nets.length ∧ tile ∈ (d.net netIdx).endpoints := by
  unfold tileToNetIndices
  simp

theorem count_tileToNetIndices {netIdx : ℕ} (h : netIdx < d.nets.length) :
    (d.tileToNetIndices tile).count netIdx = (d.net netIdx).endpoints.count tile := by
  unfold tileToNetIndices
  rw [List.count_flatMap]
  have hcount : ∀ i, List.count netIdx
      (((d.net i).endpoints.filter (· = tile)).map fun _ => i) =
        if i = netIdx then (d.net netIdx).endpoints.count tile else 0 := by
    intro i
    rw [List.map_const', List.count_replicate]
    by_cases hi : i = netIdx
    · subst hi
      rw [if_pos (beq_self_eq_true i), if_pos rfl, ← List.countP_eq_length_filter]
      exact List.countP_congr fun ep _ => by simp
    · rw [if_neg (by simpa using hi), if_neg hi]
  calc _ = ∑ i ∈ Finset.range d.nets.length,
        if i = netIdx then (d.net netIdx).endpoints.count tile else 0 :=
      congrArg List.sum (List.map_congr_left fun i _ => hcount i)
    _ = _ := by rw [Finset.sum_ite_eq', if_pos (Finset.mem_range.2 h)]

variable {placement tile newPos}

/-- **The boxes after a move**: those of the nets of the tile are computed again. -/
theorem foldl_evaluateNet_boxes (l : List ℕ) (r : Evaluation) (netIdx : ℕ) :
    (l.foldl (d.evaluateNet placement tile newPos) r).boxes netIdx =
      if netIdx ∈ l then movedBox placement tile newPos (d.net netIdx) else r.boxes netIdx := by
  induction l generalizing r with
  | nil => simp
  | cons i l ih =>
    rw [List.foldl_cons, ih]
    by_cases hl : netIdx ∈ l
    · rw [if_pos hl, if_pos (List.mem_cons_of_mem _ hl)]
    · rw [if_neg hl]
      by_cases hi : netIdx = i
      · subst hi
        rw [if_pos List.mem_cons_self]
        exact Function.update_self ..
      · rw [if_neg (by simp [hi, hl])]
        exact Function.update_of_ne hi ..

theorem computeTotalHPWL_update (boxes : Boxes) {netIdx : ℕ} (h : netIdx < d.nets.length)
    (bb : NetBoundingBox) :
    d.computeTotalHPWL (Function.update boxes netIdx bb) = d.computeTotalHPWL boxes +
      (computeNetHPWL (d.net netIdx) bb - computeNetHPWL (d.net netIdx) (boxes netIdx)) := by
  unfold computeTotalHPWL
  have hmem : netIdx ∈ Finset.range d.nets.length := Finset.mem_range.2 h
  rw [← Finset.add_sum_erase _ _ hmem, ← Finset.add_sum_erase _ _ hmem, Function.update_self]
  have hrest : ∀ i ∈ (Finset.range d.nets.length).erase netIdx,
      computeNetHPWL (d.net i) (Function.update boxes netIdx bb i) =
        computeNetHPWL (d.net i) (boxes i) := by
    intro i hi
    rw [Function.update_of_ne (Finset.ne_of_mem_erase hi)]
  rw [Finset.sum_congr rfl hrest]
  ring

/-- **The change of the wire length** is what the evaluation adds up. -/
theorem foldl_evaluateNet_delta (l : List ℕ) (hl : ∀ i ∈ l, i < d.nets.length)
    (r : Evaluation) :
    d.computeTotalHPWL (l.foldl (d.evaluateNet placement tile newPos) r).boxes +
        r.deltaCost =
      d.computeTotalHPWL r.boxes +
        (l.foldl (d.evaluateNet placement tile newPos) r).deltaCost := by
  induction l generalizing r with
  | nil => rfl
  | cons i l ih =>
    have hstep := ih (fun j hj => hl j (List.mem_cons_of_mem _ hj))
      (d.evaluateNet placement tile newPos r i)
    have hboxes : d.computeTotalHPWL (d.evaluateNet placement tile newPos r i).boxes = _ :=
      d.computeTotalHPWL_update r.boxes (hl i List.mem_cons_self) _
    have hdelta : (d.evaluateNet placement tile newPos r i).deltaCost = r.deltaCost + _ := rfl
    rw [List.foldl_cons]
    rw [hboxes, hdelta] at hstep
    linarith

/-- The boxes that restoring the backups leaves: the old ones of the nets that were evaluated once,
the new ones of those evaluated several times. -/
theorem revertMove_foldl_evaluateNet (l : List ℕ) (boxes boxes' : Boxes) (netIdx : ℕ) :
    revertMove (l.foldl (d.evaluateNet placement tile newPos) { boxes }).backups boxes' netIdx =
      if netIdx ∉ l then boxes' netIdx
      else if l.count netIdx = 1 then boxes netIdx
      else movedBox placement tile newPos (d.net netIdx) := by
  induction l using List.reverseRecOn with
  | nil => rfl
  | append_singleton l i ih =>
    unfold revertMove at ih ⊢
    rw [List.foldl_concat]
    simp only [evaluateNet, List.foldl_concat]
    by_cases hi : netIdx = i
    · subst hi
      have hmem : ¬netIdx ∉ l ++ [netIdx] := by simp
      have hcount : (l ++ [netIdx]).count netIdx = l.count netIdx + 1 := by simp
      rw [Function.update_self, d.foldl_evaluateNet_boxes, if_neg hmem, hcount]
      by_cases hl : netIdx ∈ l
      · have hpos := List.count_pos_iff.2 hl
        rw [if_pos hl, if_neg (by omega)]
      · rw [if_neg hl, List.count_eq_zero_of_not_mem hl, if_pos (zero_add 1)]
    · rw [Function.update_of_ne hi, ih, List.count_append]
      simp [hi, Ne.symm hi]

variable (placement tile newPos)

/-- **Evaluating a move** computes the boxes of the nets of the tile again. -/
theorem evaluateMove_boxes (boxes : Boxes) {netIdx : ℕ} (h : netIdx < d.nets.length) :
    (d.evaluateMove placement tile newPos boxes).boxes netIdx =
      if tile ∈ (d.net netIdx).endpoints then movedBox placement tile newPos (d.net netIdx)
      else boxes netIdx := by
  unfold evaluateMove
  rw [d.foldl_evaluateNet_boxes]
  simp only [mem_tileToNetIndices, h, true_and]

theorem evaluateMove_delta (boxes : Boxes) :
    d.computeTotalHPWL (d.evaluateMove placement tile newPos boxes).boxes =
      d.computeTotalHPWL boxes + (d.evaluateMove placement tile newPos boxes).deltaCost := by
  have hfold := @foldl_evaluateNet_delta placement tile newPos d (d.tileToNetIndices tile)
    (fun i hi => ((d.mem_tileToNetIndices tile).1 hi).1) { boxes }
  rwa [add_zero] at hfold

/-- **Reverting a move** leaves the new box of a net that names the tile several times. -/
theorem revertMove_evaluateMove (boxes boxes' : Boxes) {netIdx : ℕ} (h : netIdx < d.nets.length) :
    revertMove (d.evaluateMove placement tile newPos boxes).backups boxes' netIdx =
      if tile ∉ (d.net netIdx).endpoints then boxes' netIdx
      else if (d.net netIdx).endpoints.count tile = 1 then boxes netIdx
      else movedBox placement tile newPos (d.net netIdx) := by
  unfold evaluateMove
  rw [d.revertMove_foldl_evaluateNet, d.count_tileToNetIndices tile h]
  simp only [mem_tileToNetIndices, h, true_and]

end Design

end MlirAie.Placer
