import MlirAie.Lib.Lists
import MlirAie.Placer.Charges

/-!
# Memory and channels in use

* `initResourceTracking`: the use of a placement, computed at once;
* `ChannelsTracked`, `MemoryTracked`: the use is that of the placement;
* **`updateResources_channels`**, **`updateResources_memory`**: both are kept by an update, the
  memory where no fifo with several consumers could have been held at either end of one.
-/

namespace MlirAie.Placer

open MlirAie.Lib

namespace Design

variable (d : Design)

/-! ## The source -/

def staticCharges (placement : Placement) : List (TileID × ℤ) :=
  (List.range d.logicalTiles.length).filterMap fun op =>
    (placement op).map fun pos => (pos, d.staticBufferSize op)

def stackCharges (placement : Placement) : List (TileID × ℤ) :=
  ((List.range d.logicalTiles.length).filter d.isCore).filterMap fun op =>
    (placement op).map fun pos => (pos, d.stackSize op)

def initResourceTracking (placement : Placement) : Usage :=
  (List.range d.fifoBuffers.length).foldl
    (fun u i => d.addFifoContribution placement i (d.fifoBuffer i) 1 u)
    { mem := addCharges 1 (d.staticCharges placement ++ d.stackCharges placement) fun _ => 0 }

/-- What tiles hold at the positions that are listed with them. -/
def movedCharges (moved : List (ℕ × TileID)) : List (TileID × ℤ) :=
  moved.flatMap fun m => [(m.2, d.staticBufferSize m.1), (m.2, d.stackSize m.1)]

/-- The placement with the listed tiles at the positions listed with them. -/
def place (moved : List (ℕ × TileID)) (placement : Placement) : Placement :=
  moved.foldl (fun placement m => Function.update placement m.1 (some m.2)) placement

/-- `affectedFifos`, in the order of the set: the fifos of the tiles that have moved. -/
structure AffectedFifos (oldPlacements : List (ℕ × TileID)) (order : List ℕ) : Prop where
  nodup : order.Nodup
  mem_iff : ∀ fi, fi ∈ order ↔ fi < d.fifoBuffers.length ∧
    ∃ m ∈ oldPlacements, m.1 ∈ (d.fifoBuffer fi).tiles

/-- `updateResourcePenalty`: the use of the placement, `u` being the one before some tiles moved. -/
def updateResources (oldPlacements : List (ℕ × TileID)) (order : List ℕ) (placement : Placement)
    (u : Usage) : Usage :=
  let held := { u with mem := addCharges (-1) (d.movedCharges oldPlacements) u.mem }
  let taken := order.foldl
    (fun u i => d.addFifoContribution (place oldPlacements placement) i (d.fifoBuffer i) (-1) u)
    held
  let added := order.foldl
    (fun u i => d.addFifoContribution placement i (d.fifoBuffer i) 1 u) taken
  { added with
    mem := addCharges 1
      (d.movedCharges (oldPlacements.map fun m => (m.1, (placement m.1).getD ⟨0, 0⟩))) added.mem }

/-! ## What is to be tracked -/

/-- The buffers and stacks that are placed on a tile. -/
def heldBy (placement : Placement) (t : TileID) : ℤ :=
  ∑ op ∈ Finset.range d.logicalTiles.length,
    if placement op = some t then d.staticBufferSize op + d.stackSize op else 0

/-- The channels in use are those of the fifos. -/
def ChannelsTracked (placement : Placement) (u : Usage) : Prop :=
  ∀ t, u.dma t = ∑ fi ∈ Finset.range d.fifoBuffers.length, d.channels placement (d.fifoBuffer fi) t

/-- The memory in use is what the tiles hold and what each fifo contributes under one choice of the
tile of its shared objects, which is the remembered one for a fifo with one consumer. -/
def MemoryTracked (placement : Placement) (u : Usage) : Prop :=
  ∃ choice : ℕ → ℕ → TileID,
    (∀ fi < d.fifoBuffers.length, d.ValidChoice placement (d.fifoBuffer fi) (choice fi)) ∧
    (∀ fi < d.fifoBuffers.length,
      d.Remembered placement fi (d.fifoBuffer fi) (choice fi) u.dest) ∧
    ∀ t, u.mem t = d.heldBy placement t + ∑ fi ∈ Finset.range d.fifoBuffers.length,
      chargesAt (d.fifoCharges placement (d.fifoBuffer fi) (choice fi)) t

variable {d} {placement before : Placement} {u : Usage} {order : List ℕ}
  {oldPlacements : List (ℕ × TileID)}

/-! ## What tiles hold -/

theorem chargesAt_filterMap (l : List ℕ) (f : ℕ → ℤ) (t : TileID) :
    chargesAt (l.filterMap fun op => (placement op).map fun pos => (pos, f op)) t =
      (l.map fun op => if placement op = some t then f op else 0).sum := by
  induction l with
  | nil => rfl
  | cons op l ih =>
    rw [List.filterMap_cons, List.map_cons, List.sum_cons]
    cases hpos : placement op with
    | none => simp only [Option.map_none, ih, reduceCtorEq, if_false, zero_add]
    | some pos => simp only [Option.map_some, chargesAt_cons, ih, Option.some.injEq]

theorem stackSize_eq_zero {op : ℕ} (h : d.isCore op = false) : d.stackSize op = 0 := by
  unfold stackSize
  cases hcore : d.cores.reverse.find? fun core => core.tile = .logical op with
  | none => rfl
  | some core =>
    have hmem : core ∈ d.cores := List.mem_reverse.1 (List.mem_of_find?_eq_some hcore)
    have htile := List.find?_some hcore
    rw [d.core_isCore core hmem op (by simpa using htile)] at h
    cases h

theorem sum_map_filter {p : ℕ → Bool} {f : ℕ → ℤ} (h : ∀ op, p op = false → f op = 0)
    (l : List ℕ) : ((l.filter p).map f).sum = (l.map f).sum := by
  induction l with
  | nil => rfl
  | cons op l ih =>
    rw [List.map_cons, List.sum_cons]
    by_cases hp : p op = true
    · rw [List.filter_cons_of_pos hp, List.map_cons, List.sum_cons, ih]
    · rw [List.filter_cons_of_neg hp, ih, h op (Bool.eq_false_of_not_eq_true hp), zero_add]

theorem chargesAt_staticCharges (t : TileID) :
    chargesAt (d.staticCharges placement ++ d.stackCharges placement) t = d.heldBy placement t := by
  unfold staticCharges stackCharges heldBy
  rw [chargesAt_append, chargesAt_filterMap, chargesAt_filterMap, sum_map_filter]
  · show (∑ op ∈ Finset.range _, _) + (∑ op ∈ Finset.range _, _) = _
    rw [← Finset.sum_add_distrib]
    refine Finset.sum_congr rfl fun op _ => ?_
    split_ifs
    · rfl
    · rfl
  · intro op hop
    rw [stackSize_eq_zero hop, ite_self]

theorem chargesAt_movedCharges (moved : List (ℕ × TileID)) (t : TileID) :
    chargesAt (d.movedCharges moved) t =
      (moved.map fun m => if m.2 = t then d.staticBufferSize m.1 + d.stackSize m.1 else 0).sum := by
  unfold movedCharges
  induction moved with
  | nil => rfl
  | cons m moved ih =>
    rw [List.flatMap_cons, chargesAt_append, ih, List.map_cons, List.sum_cons, chargesAt_cons,
      chargesAt_cons]
    split_ifs
    · simp [chargesAt]
    · simp [chargesAt]

/-! ## Moves -/

theorem place_of_not_mem {moved : List (ℕ × TileID)} {op : ℕ} (h : op ∉ moved.map Prod.fst) :
    place moved placement op = placement op := by
  unfold place
  induction moved generalizing placement with
  | nil => rfl
  | cons m moved ih =>
    rw [List.map_cons, List.mem_cons, not_or] at h
    rw [List.foldl_cons, ih h.2, Function.update_of_ne h.1]

theorem place_of_mem {moved : List (ℕ × TileID)} (hnodup : (moved.map Prod.fst).Nodup)
    {m : ℕ × TileID} (h : m ∈ moved) : place moved placement m.1 = some m.2 := by
  induction moved generalizing placement with
  | nil => cases h
  | cons m' moved ih =>
    rw [List.map_cons, List.nodup_cons] at hnodup
    show place moved _ m.1 = _
    rcases List.mem_cons.1 h with rfl | h
    · rw [place_of_not_mem hnodup.1]
      exact Function.update_self ..
    · exact ih hnodup.2 h

/-- The listed tiles have moved from the positions that are listed with them. -/
structure Moved (d : Design) (before placement : Placement) (oldPlacements : List (ℕ × TileID)) :
    Prop where
  nodup : (oldPlacements.map Prod.fst).Nodup
  lt : ∀ m ∈ oldPlacements, m.1 < d.logicalTiles.length
  old : ∀ m ∈ oldPlacements, before m.1 = some m.2
  new : ∀ m ∈ oldPlacements, ∃ pos, placement m.1 = some pos
  same : ∀ op, op ∉ oldPlacements.map Prod.fst → placement op = before op

theorem Moved.place_eq (h : Moved d before placement oldPlacements) :
    place oldPlacements placement = before := by
  funext op
  by_cases hop : op ∈ oldPlacements.map Prod.fst
  · obtain ⟨m, hm, rfl⟩ := List.mem_map.1 hop
    rw [place_of_mem h.nodup hm, h.old m hm]
  · rw [place_of_not_mem hop, h.same op hop]

theorem Moved.heldBy (h : Moved d before placement oldPlacements) (t : TileID) :
    d.heldBy placement t = d.heldBy before t - chargesAt (d.movedCharges oldPlacements) t +
      chargesAt (d.movedCharges
        (oldPlacements.map fun m => (m.1, (placement m.1).getD ⟨0, 0⟩))) t := by
  have hold : ((oldPlacements.map Prod.fst).map fun op =>
      if before op = some t then d.staticBufferSize op + d.stackSize op else 0) =
      oldPlacements.map fun m =>
        if m.2 = t then d.staticBufferSize m.1 + d.stackSize m.1 else 0 := by
    rw [List.map_map]
    refine List.map_congr_left fun m hm => ?_
    simp only [Function.comp_apply, h.old m hm, Option.some.injEq]
  have hnew : ((oldPlacements.map Prod.fst).map fun op =>
      if placement op = some t then d.staticBufferSize op + d.stackSize op else 0) =
      (oldPlacements.map fun m => (m.1, (placement m.1).getD ⟨0, 0⟩)).map fun m =>
        if m.2 = t then d.staticBufferSize m.1 + d.stackSize m.1 else 0 := by
    rw [List.map_map, List.map_map]
    refine List.map_congr_left fun m hm => ?_
    obtain ⟨pos, hpos⟩ := h.new m hm
    simp only [Function.comp_apply, hpos, Option.some.injEq, Option.getD_some]
  rw [chargesAt_movedCharges, chargesAt_movedCharges, ← hold, ← hnew]
  refine sum_range_replace h.nodup ?_ fun op _ hop => by rw [h.same op hop]
  intro op hop
  obtain ⟨m, hm, rfl⟩ := List.mem_map.1 hop
  exact h.lt m hm

/-- A fifo that is not affected keeps its connections and what it is charged. -/
theorem Moved.unmoved (h : Moved d before placement oldPlacements)
    (horder : d.AffectedFifos oldPlacements order) {fi : ℕ} (hfi : fi < d.fifoBuffers.length)
    (hnot : fi ∉ order) : ∀ op ∈ (d.fifoBuffer fi).tiles, placement op = before op := by
  intro op hop
  refine h.same op fun hmem => hnot ?_
  obtain ⟨m, hm, rfl⟩ := List.mem_map.1 hmem
  exact (horder.mem_iff fi).2 ⟨hfi, m, hm, hop⟩

/-! ## Channels -/

theorem addFifoContribution_dma_eq {fifoIdx : ℕ} {fb : FifoBufferInfo} {sign : ℤ} (t : TileID) :
    (d.addFifoContribution placement fifoIdx fb sign u).dma t =
      u.dma t + sign • d.channels placement fb t :=
  Device.addFifoContribution_dma t

theorem initResourceTracking_channels (placement : Placement) :
    d.ChannelsTracked placement (d.initResourceTracking placement) := by
  intro t
  unfold initResourceTracking
  rw [foldl_add (fun u : Usage => u.dma t) _
    (fun fi => d.channels placement (d.fifoBuffer fi) t) _ fun i _ u => by
      rw [addFifoContribution_dma_eq, one_smul]]
  exact zero_add _

/-- **The channels in use follow the moves.** -/
theorem updateResources_channels (h : Moved d before placement oldPlacements)
    (horder : d.AffectedFifos oldPlacements order) (hu : d.ChannelsTracked before u) :
    d.ChannelsTracked placement (d.updateResources oldPlacements order placement u) := by
  intro t
  show (List.foldl _ (List.foldl _ _ order) order : Usage).dma t = _
  rw [foldl_add (fun u : Usage => u.dma t) _
      (fun fi => d.channels placement (d.fifoBuffer fi) t) _ fun i _ u => by
        rw [addFifoContribution_dma_eq, one_smul],
    foldl_add (fun u : Usage => u.dma t) _
      (fun fi => -d.channels before (d.fifoBuffer fi) t) _ fun i _ u => by
        rw [addFifoContribution_dma_eq, h.place_eq, neg_smul, one_smul]]
  rw [sum_range_replace horder.nodup (fun fi hfi => ((horder.mem_iff fi).1 hfi).1)
    (fun fi hfi hnot => congrFun (@Device.unmoved d.toDevice _ _ _ (h.unmoved horder hfi hnot)).1 t),
    ← hu t, sub_eq_add_neg, List.sum_neg, List.map_map]
  rfl

/-! ## Memory -/

def OneWayOrSingle (d : Design) (before : Placement) (order : List ℕ) : Prop :=
  ∀ fi ∈ order, d.twoWay before (d.fifoBuffer fi) ≠ [] → (d.fifoBuffer fi).consumers.length = 1

theorem remembered_congr {fi : ℕ} {fb : FifoBufferInfo} {chosen : ℕ → TileID}
    {dest dest' : ℕ → Option TileID} (heq : dest' fi = dest fi)
    (h : d.Remembered placement fi fb chosen dest) : d.Remembered placement fi fb chosen dest' :=
  fun hone c hc => heq.trans (h hone c hc)

theorem foldl_contribution_sub (choice : ℕ → ℕ → TileID) (l : List ℕ)
    (hone : d.OneWayOrSingle placement l) (u : Usage)
    (hrem : ∀ fi ∈ l, d.Remembered placement fi (d.fifoBuffer fi) (choice fi) u.dest) :
    let u' := l.foldl
      (fun u i => d.addFifoContribution placement i (d.fifoBuffer i) (-1) u) u
    u'.dest = u.dest ∧ ∀ t, u'.mem t = u.mem t -
      (l.map fun fi => chargesAt (d.fifoCharges placement (d.fifoBuffer fi) (choice fi)) t).sum := by
  induction l generalizing u with
  | nil => exact ⟨rfl, fun t => (sub_zero _).symm⟩
  | cons i l ih =>
    obtain ⟨hdest, hmem⟩ := @Device.addFifoContribution_sub d.toDevice (d.fifoBuffer i) i placement
      u (choice i) (hrem i List.mem_cons_self) (hone i List.mem_cons_self)
    obtain ⟨hdest', hmem'⟩ := ih (fun fi hfi => hone fi (List.mem_cons_of_mem _ hfi))
      (d.addFifoContribution placement i (d.fifoBuffer i) (-1) u) (fun fi hfi => by
        rw [hdest]
        exact hrem fi (List.mem_cons_of_mem _ hfi))
    refine ⟨hdest'.trans hdest, fun t => ?_⟩
    rw [List.foldl_cons, hmem', hmem, List.map_cons, List.sum_cons, sub_sub]

theorem foldl_contribution_add (l : List ℕ) (hl : l.Nodup) (u : Usage) :
    let u' := l.foldl (fun u i => d.addFifoContribution placement i (d.fifoBuffer i) 1 u) u
    (∀ fi, fi ∉ l → u'.dest fi = u.dest fi) ∧ ∃ choice : ℕ → ℕ → TileID,
      (∀ fi ∈ l, d.ValidChoice placement (d.fifoBuffer fi) (choice fi)) ∧
      (∀ fi ∈ l, d.Remembered placement fi (d.fifoBuffer fi) (choice fi) u'.dest) ∧
      ∀ t, u'.mem t = u.mem t +
        (l.map fun fi =>
          chargesAt (d.fifoCharges placement (d.fifoBuffer fi) (choice fi)) t).sum := by
  induction l generalizing u with
  | nil => exact ⟨fun _ _ => rfl, fun _ _ => ⟨0, 0⟩, by simp, by simp, fun t => (add_zero _).symm⟩
  | cons i l ih =>
    rw [List.nodup_cons] at hl
    obtain ⟨chosen, hvalid, hrem, hmem⟩ :=
      @Device.addFifoContribution_add d.toDevice (d.fifoBuffer i) i placement u
    obtain ⟨hdest, choice, hvalid', hrem', hmem'⟩ := ih hl.2
      (d.addFifoContribution placement i (d.fifoBuffer i) 1 u)
    have hother : ∀ fi ∈ l, Function.update choice i chosen fi = choice fi := fun fi hfi =>
      Function.update_of_ne (fun heq => hl.1 (by rwa [← heq])) ..
    refine ⟨fun fi hfi => ?_, Function.update choice i chosen, ?_, ?_, fun t => ?_⟩
    · rw [List.mem_cons, not_or] at hfi
      rw [List.foldl_cons, hdest fi hfi.2, Device.addFifoContribution_dest_of_ne hfi.1]
    · intro fi hfi
      rcases List.mem_cons.1 hfi with rfl | hfi
      · rwa [Function.update_self]
      · rw [hother fi hfi]
        exact hvalid' fi hfi
    · intro fi hfi
      rcases List.mem_cons.1 hfi with rfl | hfi
      · rw [Function.update_self]
        exact remembered_congr (hdest fi hl.1) hrem
      · rw [hother fi hfi]
        exact hrem' fi hfi
    · rw [List.foldl_cons, hmem', hmem, List.map_cons, List.sum_cons, Function.update_self,
        add_assoc]
      congr 3
      exact List.map_congr_left fun fi hfi => by rw [hother fi hfi]

theorem initResourceTracking_memory (placement : Placement) :
    d.MemoryTracked placement (d.initResourceTracking placement) := by
  obtain ⟨-, choice, hvalid, hrem, hmem⟩ := @foldl_contribution_add d placement
    (List.range d.fifoBuffers.length) List.nodup_range
    { mem := addCharges 1 (d.staticCharges placement ++ d.stackCharges placement) fun _ => 0 }
  refine ⟨choice, fun fi hfi => hvalid fi (List.mem_range.2 hfi),
    fun fi hfi => hrem fi (List.mem_range.2 hfi), fun t => ?_⟩
  unfold initResourceTracking
  rw [hmem t]
  show addCharges 1 _ _ t + _ = _
  rw [addCharges_apply, zero_add, one_mul, chargesAt_staticCharges]
  rfl

/-- **The memory in use follows the moves**, unless a fifo is taken away from a tile that it might
not be on. -/
theorem updateResources_memory (h : Moved d before placement oldPlacements)
    (horder : d.AffectedFifos oldPlacements order) (hone : d.OneWayOrSingle before order)
    (hu : d.MemoryTracked before u) :
    d.MemoryTracked placement (d.updateResources oldPlacements order placement u) := by
  obtain ⟨choice, hvalid, hrem, hmem⟩ := hu
  have hlt : ∀ fi ∈ order, fi < d.fifoBuffers.length := fun fi hfi =>
    ((horder.mem_iff fi).1 hfi).1
  obtain ⟨hdest₁, hmem₁⟩ := @foldl_contribution_sub d before choice order hone
    { u with mem := addCharges (-1) (d.movedCharges oldPlacements) u.mem }
    (fun fi hfi => hrem fi (hlt fi hfi))
  obtain ⟨hdest₂, choice', hvalid', hrem', hmem₂⟩ := @foldl_contribution_add d placement order
    horder.nodup (order.foldl (fun u i => d.addFifoContribution before i (d.fifoBuffer i) (-1) u)
      { u with mem := addCharges (-1) (d.movedCharges oldPlacements) u.mem })
  -- the fifos that are not affected keep their choice
  have hkeep : ∀ fi < d.fifoBuffers.length, fi ∉ order →
      d.fifoCharges placement (d.fifoBuffer fi) = d.fifoCharges before (d.fifoBuffer fi) ∧
        d.twoWay placement (d.fifoBuffer fi) = d.twoWay before (d.fifoBuffer fi) :=
    fun fi hfi hnot => (Device.unmoved (h.unmoved horder hfi hnot)).2
  refine ⟨fun fi => if fi ∈ order then choice' fi else choice fi, fun fi hfi => ?_,
    fun fi hfi => ?_, fun t => ?_⟩
  · by_cases hmem : fi ∈ order
    · simp only [if_pos hmem]
      exact hvalid' fi hmem
    · simp only [if_neg hmem]
      unfold Device.ValidChoice
      rw [(hkeep fi hfi hmem).2]
      exact hvalid fi hfi
  · unfold updateResources
    simp only [h.place_eq]
    by_cases hmem : fi ∈ order
    · simp only [if_pos hmem]
      exact hrem' fi hmem
    · simp only [if_neg hmem]
      refine remembered_congr ((hdest₂ fi hmem).trans (congrFun hdest₁ fi)) ?_
      unfold Device.Remembered
      rw [(hkeep fi hfi hmem).2]
      exact hrem fi hfi
  · unfold updateResources
    simp only [h.place_eq]
    have hheld : addCharges (-1) (d.movedCharges oldPlacements) u.mem t = _ := addCharges_apply ..
    rw [addCharges_apply, hmem₂, hmem₁]
    simp only [hheld, hmem t, h.heldBy t]
    have hreplace := @sum_range_replace ℤ _ d.fifoBuffers.length order horder.nodup hlt
      (fun fi => chargesAt (d.fifoCharges before (d.fifoBuffer fi) (choice fi)) t)
      (fun fi => chargesAt (d.fifoCharges placement (d.fifoBuffer fi)
        (if fi ∈ order then choice' fi else choice fi)) t)
      (fun fi hfi hnot => by simp only [if_neg hnot, (hkeep fi hfi hnot).1])
    have hnew : (order.map fun fi => chargesAt (d.fifoCharges placement (d.fifoBuffer fi)
        (if fi ∈ order then choice' fi else choice fi)) t) =
        order.map fun fi => chargesAt (d.fifoCharges placement (d.fifoBuffer fi) (choice' fi)) t :=
      List.map_congr_left fun fi hfi => by simp only [if_pos hfi]
    rw [hreplace, hnew]
    ring

end Design

end MlirAie.Placer
