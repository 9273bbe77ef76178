import MlirAie.Placer.CoreTiles

/-!
# The allocates that an annealing generates

* `Reached`: both ends of a fifo are cores that reach the tile which an allocate names;
* `PackingReached`: the allocates so far, at most one for each fifo;
* **`generateAllocates_reached`**: the allocates of a placement whose cores are apart.
-/

namespace MlirAie.Placer

namespace TargetModel

variable {tm : TargetModel} {a b : TileID}

theorem reachesDelegate_self (tm : TargetModel) (t : TileID) : tm.reachesDelegate t t = true := by
  simp [reachesDelegate, getSharedMemory_self]

theorem reachesDelegate_of_affinity (ha : tm.getTileType a = .CoreTile)
    (hb : tm.getTileType b = .CoreTile) (h : tm.isLegalMemAffinity b a = true) :
    tm.reachesDelegate a b = true := by
  unfold reachesDelegate getSharedMemory
  rw [if_neg (by simp [isShimNOCorPLTile, isMemTile, ha, hb])]
  simp only [h, Bool.and_true, if_true]
  cases tm.isLegalMemAffinity a b <;> rfl

theorem mem_getMemAffinityNeighbors (h : b ∈ tm.getMemAffinityNeighbors a) :
    tm.isLegalMemAffinity a b = true := by
  have hspec := (List.mem_filter.1 h).2
  exact (of_decide_eq_true hspec).2.2

def NeighborsAreCores (tm : TargetModel) : Prop :=
  ∀ pos ∈ tm.positions, tm.getTileType pos = .CoreTile →
    ∀ nbr ∈ tm.getMemAffinityNeighbors pos, tm.getTileType nbr = .CoreTile

end TargetModel

namespace Design

variable {d : Design} {placement : Placement}

/-- The ends of a fifo are two cores, or one, that reach the tile which an allocate names. -/
structure Reached (d : Design) (placement : Placement) (a : ℕ × TileID) : Prop where
  lt : a.1 < d.fifoBuffers.length
  unallocated : positionOf placement (d.fifoBuffer a.1).delegate = none
  ends : ∃ prod cons, (d.fifoBuffer a.1).producer = some prod ∧
    (d.fifoBuffer a.1).consumers = [cons] ∧ d.isCore prod = true ∧ d.isCore cons = true ∧
    ∃ p q, placement prod = some p ∧ placement cons = some q ∧
      d.target.reachesDelegate a.2 p = true ∧ d.target.reachesDelegate a.2 q = true

/-! ## What is remembered -/

/-- The tile is one of the ends of the only consumer, which share memory both ways. -/
def CouldHold (d : Design) (placement : Placement) (fi : ℕ) (t : TileID) : Prop :=
  (d.fifoBuffer fi).consumers.length = 1 ∧
    ∃ c ∈ d.twoWay placement (d.fifoBuffer fi), t = c.prodPos ∨ t = c.consPos

theorem foldl_addConsumer_remembers {fi : ℕ} {delegatePos : Option TileID} (l : List Connection)
    (r : Charging) {t : TileID}
    (h : (l.foldl (d.addConsumer fi (d.fifoBuffer fi) delegatePos 1) r).usage.dest fi = some t) :
    r.usage.dest fi = some t ∨ (d.fifoBuffer fi).consumers.length = 1 ∧
      ∃ c ∈ l, d.choosesShared (d.fifoBuffer fi) delegatePos c = true ∧
        (t = c.prodPos ∨ t = c.consPos) := by
  induction l generalizing r with
  | nil => exact .inl h
  | cons c l ih =>
    rcases ih _ h with hdest | ⟨hone, c', hc', hspec⟩
    · change d.noteShared fi (d.fifoBuffer fi) delegatePos c 1 r.usage fi = some t at hdest
      unfold Device.noteShared at hdest
      split_ifs at hdest with hnote
      · rw [Function.update_self, Option.some.injEq] at hdest
        simp only [Bool.and_eq_true, decide_eq_true_eq] at hnote
        refine .inr ⟨hnote.2, c, List.mem_cons_self, hnote.1.1, ?_⟩
        unfold Device.chooseShared at hdest
        rw [if_pos one_pos] at hdest
        split_ifs at hdest
        · exact .inl hdest.symm
        · exact .inr hdest.symm
      · exact .inl hdest
    · exact .inr ⟨hone, c', List.mem_cons_of_mem _ hc', hspec⟩

theorem addFifoContribution_remembers {fi : ℕ} {u : Usage} {t : TileID}
    (h : (d.addFifoContribution placement fi (d.fifoBuffer fi) 1 u).dest fi = some t) :
    u.dest fi = some t ∨ d.CouldHold placement fi t := by
  rw [Device.addFifoContribution_eq.2] at h
  refine (foldl_addConsumer_remembers _ _ h).imp_right ?_
  rintro ⟨hone, c, hc, hchoose, ht⟩
  exact ⟨hone, c, List.mem_filter.2 ⟨hc, hchoose⟩, ht⟩

/-- **What is remembered** of a placement. -/
theorem initResourceTracking_dest {fi : ℕ} {t : TileID}
    (h : (d.initResourceTracking placement).dest fi = some t) :
    fi < d.fifoBuffers.length ∧ d.CouldHold placement fi t := by
  have hfold : ∀ (l : List ℕ) (u : Usage),
      (l.foldl (fun u i => d.addFifoContribution placement i (d.fifoBuffer i) 1 u) u).dest fi =
        some t → u.dest fi = some t ∨ fi ∈ l ∧ d.CouldHold placement fi t := by
    intro l
    induction l with
    | nil => exact fun u h => .inl h
    | cons i l ih =>
      intro u h
      rcases ih _ h with h | ⟨hmem, hhold⟩
      · by_cases hi : fi = i
        · subst hi
          exact (addFifoContribution_remembers h).imp_right fun hhold =>
            ⟨List.mem_cons_self, hhold⟩
        · rw [Device.addFifoContribution_dest_of_ne hi] at h
          exact .inl h
      · exact .inr ⟨List.mem_cons_of_mem _ hmem, hhold⟩
  rcases hfold _ _ h with h | ⟨hmem, hhold⟩
  · cases h
  · exact ⟨List.mem_range.1 hmem, hhold⟩

theorem mem_placedConnections {fb : FifoBufferInfo} {c : Connection}
    (hc : c ∈ Device.placedConnections placement fb) :
    fb.producer = some c.prod ∧ placement c.prod = some c.prodPos ∧ c.cons ∈ fb.consumers ∧
      placement c.cons = some c.consPos := by
  unfold Device.placedConnections at hc
  cases hprod : fb.producer with
  | none => simp [hprod] at hc
  | some prod =>
    cases hpos : placement prod with
    | none => simp [hprod, hpos] at hc
    | some prodPos =>
      simp only [hprod, hpos, Option.bind_some, Option.map_some, Option.getD_some] at hc
      obtain ⟨x, hx, hc⟩ := List.mem_filterMap.1 hc
      obtain ⟨consPos, hcons, rfl⟩ := Option.map_eq_some_iff.1 hc
      exact ⟨rfl, hpos, List.fst_mem_of_mem_zipIdx hx, hcons⟩

theorem CouldHold.reached (hcores : d.LegalCores placement) {fi : ℕ} {t : TileID}
    (hlt : fi < d.fifoBuffers.length) (h : d.CouldHold placement fi t) :
    d.Reached placement (fi, t) := by
  obtain ⟨hone, c, hc, ht⟩ := h
  obtain ⟨hc, hchoose⟩ := List.mem_filter.1 hc
  obtain ⟨hprod, hp, hcons, hq⟩ := mem_placedConnections hc
  unfold Device.choosesShared Device.isSharedMem at hchoose
  simp only [Bool.and_eq_true, Bool.not_eq_true', decide_eq_true_eq] at hchoose
  obtain ⟨⟨⟨⟨-, ⟨⟨⟨-, hcore⟩, hcore'⟩, -⟩, -⟩, hnone⟩, hright⟩, hleft⟩ := hchoose
  obtain ⟨p, hp', htype⟩ := hcores.cores c.prod hcore
  obtain ⟨q, hq', htype'⟩ := hcores.cores c.cons hcore'
  obtain rfl := Option.some_injective _ (hp.symm.trans hp')
  obtain rfl := Option.some_injective _ (hq.symm.trans hq')
  obtain ⟨cons, hconsumers⟩ := List.length_eq_one_iff.1 hone
  rw [hconsumers, List.mem_singleton] at hcons
  subst hcons
  refine ⟨hlt, Option.isNone_iff_eq_none.1 hnone, c.prod, c.cons, hprod, hconsumers, hcore, hcore',
    c.prodPos, c.consPos, hp, hq, ?_⟩
  rcases ht with rfl | rfl
  · exact ⟨TargetModel.reachesDelegate_self ..,
      TargetModel.reachesDelegate_of_affinity htype htype' hleft⟩
  · exact ⟨TargetModel.reachesDelegate_of_affinity htype' htype hright,
      TargetModel.reachesDelegate_self ..⟩

/-! ## Packing -/

/-- The allocates so far: at most one for each fifo, each of them reached. -/
structure PackingReached (d : Design) (placement : Placement) (r : Packing) : Prop where
  nodup : (r.allocates.map Prod.fst).Nodup
  reached : ∀ a ∈ r.allocates, d.Reached placement a

theorem PackingReached.append {r : Packing} (h : d.PackingReached placement r) {a : ℕ × TileID}
    (hnew : a.1 ∉ r.allocates.map Prod.fst) (ha : d.Reached placement a) (mem : TileID → ℤ)
    (emitted : List ℕ) :
    d.PackingReached placement ⟨mem, emitted, r.allocates ++ [a]⟩ := by
  refine ⟨?_, fun a' ha' => ?_⟩
  · show ((r.allocates ++ [a]).map Prod.fst).Nodup
    rw [List.map_append]
    refine h.nodup.append (List.nodup_singleton _) ?_
    rw [List.map_cons, List.map_nil, List.disjoint_singleton]
    exact hnew
  · rcases List.mem_append.1 ha' with ha' | ha'
    · exact h.reached a' ha'
    · rwa [List.mem_singleton.1 ha']

structure Packs (d : Design) (placement : Placement) (r : Packing) : Prop where
  reached : d.PackingReached placement r
  emitted : ∀ a ∈ r.allocates, a.1 ∈ r.emitted

theorem Packs.packFifo {r : Packing × List (TileID × ℤ)} (h : d.Packs placement r.1)
    {fifo : ℕ × ℤ} (hfifo : ∀ nbr ∈ r.2, d.Reached placement (fifo.1, nbr.1)) :
    d.Packs placement (d.packFifo r fifo).1 ∧
      (d.packFifo r fifo).2.map Prod.fst = r.2.map Prod.fst := by
  unfold Design.packFifo
  by_cases hmem : fifo.1 ∈ r.1.emitted
  · rw [if_pos hmem]
    exact ⟨h, rfl⟩
  rw [if_neg hmem]
  cases hfind : r.2.find? fun nbr =>
      fifo.2 ≤ nbr.2 ∧ r.1.mem nbr.1 + fifo.2 ≤ d.target.getLocalMemorySize with
  | none => exact ⟨⟨⟨h.reached.nodup, h.reached.reached⟩,
      fun a ha => List.mem_cons_of_mem _ (h.emitted a ha)⟩, rfl⟩
  | some nbr =>
    refine ⟨⟨?_, fun a ha => ?_⟩, ?_⟩
    · refine h.reached.append ?_ (hfifo nbr (List.mem_of_find?_eq_some hfind)) _ _
      rintro hfst
      obtain ⟨a, ha, hfst⟩ := List.mem_map.1 hfst
      exact hmem (hfst ▸ h.emitted a ha)
    · rcases List.mem_append.1 ha with ha | ha
      · exact List.mem_cons_of_mem _ (h.emitted a ha)
      · rw [List.mem_singleton.1 ha]
        exact List.mem_cons_self
    · show (r.2.map _).map Prod.fst = _
      rw [List.map_map]
      refine List.map_congr_left fun other _ => ?_
      show (if _ then _ else _ : TileID × ℤ).1 = _
      split_ifs
      · rfl
      · rfl

theorem Packs.foldl_packFifo (fifos : List (ℕ × ℤ)) {r : Packing × List (TileID × ℤ)}
    (h : d.Packs placement r.1)
    (hfifos : ∀ fifo ∈ fifos, ∀ t ∈ r.2.map Prod.fst, d.Reached placement (fifo.1, t)) :
    d.Packs placement (fifos.foldl d.packFifo r).1 := by
  induction fifos generalizing r with
  | nil => exact h
  | cons fifo fifos ih =>
    obtain ⟨hpacks, hnbrs⟩ := h.packFifo fun nbr hnbr =>
      hfifos fifo List.mem_cons_self nbr.1 (List.mem_map_of_mem hnbr)
    refine ih hpacks fun fifo' hfifo' t ht => ?_
    rw [hnbrs] at ht
    exact hfifos fifo' (List.mem_cons_of_mem _ hfifo') t ht

theorem isRelocatable_reached {fi : ℕ} {tilePos t : TileID} (hcores : d.LegalCores placement)
    (horigin : d.target.getTileType ⟨0, 0⟩ ≠ .CoreTile) (hlt : fi < d.fifoBuffers.length)
    (htype : d.target.getTileType tilePos = .CoreTile)
    (h : isRelocatable placement tilePos (d.fifoBuffer fi) = true)
    (ht : tilePos ∈ d.target.positions → d.target.reachesDelegate t tilePos = true) :
    d.Reached placement (fi, t) := by
  have hcore : ∀ op, placement op = some tilePos →
      d.isCore op = true ∧ tilePos ∈ d.target.positions := by
    intro op hop
    rcases hcores.typed op tilePos hop with ⟨htyped, hmem⟩ | rfl
    · exact ⟨isCore_iff.2 (htype ▸ htyped), hmem⟩
    · exact absurd htype horigin
  unfold isRelocatable at h
  split at h
  · next prod cons hprod hcons =>
    simp only [Bool.and_eq_true, decide_eq_true_eq] at h
    obtain ⟨⟨hnone, hp⟩, hq⟩ := h
    have hreach := ht (hcore prod hp).2
    refine ⟨hlt, ?_, prod, cons, hprod, hcons, (hcore prod hp).1, (hcore cons hq).1, tilePos,
      tilePos, hp, hq, hreach, hreach⟩
    rw [Option.isNone_iff_eq_none.1 hnone]
    rfl
  · cases h

theorem Packs.packTile {s : State} (hcores : d.LegalCores s.currentPlacement)
    (horigin : d.target.getTileType ⟨0, 0⟩ ≠ .CoreTile) (hneighbors : d.target.NeighborsAreCores)
    {r : Packing} (h : d.Packs s.currentPlacement r) {tilePos : TileID}
    (htype : d.target.getTileType tilePos = .CoreTile) :
    d.Packs s.currentPlacement (d.packTile s r tilePos) := by
  unfold Design.packTile
  simp only
  cases s.physToLogical tilePos with
  | none => exact h
  | some op =>
    refine Packs.foldl_packFifo _ h fun fifo hfifo t hspare => ?_
    obtain ⟨nbr, hnbr, rfl⟩ := List.mem_map.1 hspare
    have hnbr := (List.mem_filter.1 ((List.perm_insertionSort _ _).mem_iff.1 hnbr)).1
    obtain ⟨t, ht, rfl⟩ := List.mem_map.1 hnbr
    obtain ⟨fi, hfi, rfl⟩ := List.mem_map.1 ((List.perm_insertionSort _ _).mem_iff.1 hfifo)
    obtain ⟨hlt, hfi⟩ := List.mem_filter.1 hfi
    rw [Bool.and_eq_true] at hfi
    exact isRelocatable_reached hcores horigin (List.mem_range.1 hlt) htype hfi.2 fun hmem =>
      TargetModel.reachesDelegate_of_affinity (hneighbors tilePos hmem htype t ht) htype
        (TargetModel.mem_getMemAffinityNeighbors ht)

/-! ## Shared objects -/

theorem PackingReached.foldl_allocateShared {s : State} (remembered : List ℕ)
    (hnodup : remembered.Nodup)
    (hdest : ∀ fi ∈ remembered, ∀ t, s.usage.dest fi = some t →
      d.Reached s.currentPlacement (fi, t)) {r : Packing}
    (h : d.PackingReached s.currentPlacement r)
    (hemitted : ∀ a ∈ r.allocates, a.1 ∈ remembered → a.1 ∈ r.emitted) :
    d.PackingReached s.currentPlacement (remembered.foldl (d.allocateShared s) r) := by
  induction remembered generalizing r with
  | nil => exact h
  | cons fi remembered ih =>
    rw [List.nodup_cons] at hnodup
    have hskip : d.PackingReached s.currentPlacement (remembered.foldl (d.allocateShared s) r) :=
      ih hnodup.2 (fun fi' hfi' => hdest fi' (List.mem_cons_of_mem _ hfi')) h
        fun a ha hmem => hemitted a ha (List.mem_cons_of_mem _ hmem)
    rw [List.foldl_cons]
    unfold allocateShared
    by_cases hmem : fi ∈ r.emitted
    · rw [if_pos hmem]
      exact hskip
    rw [if_neg hmem]
    split
    · next t p q ht _ _ =>
      split_ifs
      · exact hskip
      · refine ih hnodup.2 (fun fi' hfi' => hdest fi' (List.mem_cons_of_mem _ hfi'))
          (h.append ?_ (hdest fi List.mem_cons_self t ht) _ _) fun a ha hmem' => ?_
        · rintro hfst
          obtain ⟨a, ha, rfl⟩ := List.mem_map.1 hfst
          exact hmem (hemitted a ha List.mem_cons_self)
        · rcases List.mem_append.1 ha with ha | ha
          · exact hemitted a ha (List.mem_cons_of_mem _ hmem')
          · rw [List.mem_singleton.1 ha] at hmem'
            exact absurd hmem' hnodup.1
    · exact hskip

/-- **The allocates of a placement whose cores are apart**: at most one for each fifo, each naming
a tile that both ends reach. -/
theorem generateAllocates_reached {s : State} (hcores : d.LegalCores s.currentPlacement)
    (husage : s.usage = d.initResourceTracking s.currentPlacement)
    (horigin : d.target.getTileType ⟨0, 0⟩ ≠ .CoreTile) (hneighbors : d.target.NeighborsAreCores)
    {overflowTiles : List TileID} {remembered : List ℕ}
    (hoverflow : ∀ t ∈ overflowTiles, d.target.getTileType t = .CoreTile)
    (hnodup : remembered.Nodup) :
    ((d.generateAllocates s overflowTiles remembered).map Prod.fst).Nodup ∧
      ∀ a ∈ d.generateAllocates s overflowTiles remembered, d.Reached s.currentPlacement a := by
  have hpacks : ∀ (l : List TileID) (r : Packing), (∀ t ∈ l, d.target.getTileType t = .CoreTile) →
      d.Packs s.currentPlacement r → d.Packs s.currentPlacement (l.foldl (d.packTile s) r) := by
    intro l
    induction l with
    | nil => exact fun _ _ h => h
    | cons t l ih =>
      exact fun r hl h => ih _ (fun t' ht' => hl t' (List.mem_cons_of_mem _ ht'))
        (h.packTile hcores horigin hneighbors (hl t List.mem_cons_self))
  have hpacked := hpacks overflowTiles { mem := s.usage.mem } hoverflow
    ⟨⟨List.nodup_nil, fun _ h => absurd h List.not_mem_nil⟩, fun _ h => absurd h List.not_mem_nil⟩
  have hfinal := hpacked.reached.foldl_allocateShared remembered hnodup (fun fi _ t ht => ?_)
    fun a ha _ => hpacked.emitted a ha
  · exact ⟨hfinal.nodup, hfinal.reached⟩
  · rw [husage] at ht
    obtain ⟨hlt, hhold⟩ := initResourceTracking_dest ht
    exact hhold.reached hcores hlt

end Design

end MlirAie.Placer
