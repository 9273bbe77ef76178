import MlirAie.CtrlPkt.Batch

/-!
# The layout of the control-packet stream

The DMAs of a sequence against the words of its stream.

* `collect_ranges`, `emit_ranges`: the two passes as segments of the sizes the pass counts;
* `LayoutAgrees`: the DMAs read their batches' words, and cover the stream in order;
* **`ctrlPacketToDma_layout_iff`**: the layouts agree exactly where every packet has its data.
-/

namespace MlirAie.CtrlPkt

open MlirAie.Txn MlirAie.Lib

def SeqOp.packet? {α : Type} : SeqOp α → Option NpuControlPacketOp
  | .packet p => some p
  | .other _ => none

def packets {α : Type} (ops : List (SeqOp α)) : List NpuControlPacketOp :=
  ops.filterMap SeqOp.packet?

def DmaOp.range? {α : Type} : DmaOp α → Option (ℕ × ℕ)
  | .dmaMemcpyNd [0, 0, 0, offset] [1, 1, 1, size] [0, 0, 0, 1] _ _ _ => some (offset, size)
  | _ => none

def ranges {α : Type} (out : List (DmaOp α)) : List (ℕ × ℕ) := out.filterMap DmaOp.range?

namespace CtrlTarget

variable {α : Type} (T : CtrlTarget)

def BatchInfo.range (b : BatchInfo) : ℕ × ℕ := (b.startOffset, b.totalSize)

/-! ## Batches -/

/-- Two packets in a row go into one batch. -/
def Joins (p q : NpuControlPacketOp) : Prop := T.arch = .AIE2p ∧ T.tileId p = T.tileId q

instance (p q : NpuControlPacketOp) : Decidable (T.Joins p q) :=
  inferInstanceAs (Decidable (_ ∧ _))

/-- The packets of each batch: packets in a row, where the target sends them together. -/
def batchesOf : List (SeqOp α) → List (List NpuControlPacketOp)
  | [] => []
  | .other _ :: rest => batchesOf rest
  | .packet p :: rest =>
    match rest, batchesOf rest with
    | .packet q :: _, batch :: batches =>
      if T.Joins p q then (p :: batch) :: batches else [p] :: batch :: batches
    | _, batches => [p] :: batches

/-- The words the pass counts for a batch. -/
def batchSize (batch : List NpuControlPacketOp) : ℕ := (batch.map ctrlPktSize).sum

theorem batchesOf_packet_packet (p q : NpuControlPacketOp) (rest : List (SeqOp α))
    {batch : List NpuControlPacketOp} {batches : List (List NpuControlPacketOp)}
    (h : T.batchesOf (.packet q :: rest) = batch :: batches) :
    T.batchesOf (.packet p :: .packet q :: rest) =
      if T.Joins p q then (p :: batch) :: batches else [p] :: batch :: batches := by
  conv_lhs => unfold batchesOf
  rw [h]

theorem batchesOf_packet_head (p : NpuControlPacketOp) (rest : List (SeqOp α)) :
    ∃ c cs, T.batchesOf (.packet p :: rest) = (p :: c) :: cs := by
  induction rest generalizing p with
  | nil => exact ⟨[], [], rfl⟩
  | cons o rest ih =>
    cases o with
    | other a => exact ⟨[], T.batchesOf rest, rfl⟩
    | packet q =>
      obtain ⟨c, cs, hq⟩ := ih q
      rw [T.batchesOf_packet_packet p q rest hq]
      split_ifs
      · exact ⟨q :: c, cs, rfl⟩
      · exact ⟨[], (q :: c) :: cs, rfl⟩

/-- **Every packet is in exactly one batch**, in order. -/
theorem batchesOf_flatten (ops : List (SeqOp α)) : (T.batchesOf ops).flatten = packets ops := by
  induction ops with
  | nil => rfl
  | cons o rest ih =>
    cases o with
    | other a => exact ih
    | packet p =>
      cases rest with
      | nil => rfl
      | cons o rest =>
        cases o with
        | other a => exact congrArg (p :: ·) ih
        | packet q =>
          obtain ⟨c, cs, hq⟩ := T.batchesOf_packet_head q rest
          rw [hq] at ih
          rw [T.batchesOf_packet_packet p q rest hq]
          split_ifs
          · exact congrArg (p :: ·) ih
          · exact congrArg (p :: ·) ih

/-! ## The first pass -/

theorem batchSize_cons (p : NpuControlPacketOp) (c : List NpuControlPacketOp) :
    batchSize (p :: c) = ctrlPktSize p + batchSize c := by
  rw [batchSize, List.map_cons, List.sum_cons, batchSize]

/-- The ranges of the batches still to come, and of an open batch whose last packet is `p`. -/
theorem collect_ranges_aux (ops : List (SeqOp α)) :
    (∀ i fresh off acc, fresh = true ∨ acc = [] →
      (T.collect i fresh off acc ops).map BatchInfo.range =
        (layout batchSize off (T.batchesOf ops)).reverse ++ acc.map BatchInfo.range) ∧
    ∀ i off b older p c cs, b.tileId = T.tileId p → b.startOffset + b.totalSize = off →
      T.batchesOf (.packet p :: ops) = (p :: c) :: cs →
      (T.collect i false off (b :: older) ops).map BatchInfo.range =
        (layout batchSize (off + batchSize c) cs).reverse ++
          (b.startOffset, b.totalSize + batchSize c) :: older.map BatchInfo.range := by
  induction ops with
  | nil =>
    refine ⟨fun i fresh off acc _ => rfl, fun i off b older p c cs _ _ hbatch => ?_⟩
    obtain ⟨rfl, rfl⟩ : [] = c ∧ [] = cs := by simpa [batchesOf] using hbatch
    rfl
  | cons o rest ih =>
    cases o with
    | other a =>
      refine ⟨fun i fresh off acc _ => ih.1 (i + 1) true off acc (.inl rfl),
        fun i off b older p c cs _ _ hbatch => ?_⟩
      obtain ⟨rfl, rfl⟩ : [] = c ∧ T.batchesOf rest = cs := by simpa [batchesOf] using hbatch
      exact ih.1 (i + 1) true off (b :: older) (.inl rfl)
    | packet q =>
      obtain ⟨c', cs', hq⟩ := T.batchesOf_packet_head q rest
      -- the packet opens a batch of its own
      have hnew (i off : ℕ) (acc : List BatchInfo) :
          (T.collect (i + 1) false (off + ctrlPktSize q) (T.newBatch i off q :: acc) rest).map
            BatchInfo.range = (layout batchSize off ((q :: c') :: cs')).reverse ++
              acc.map BatchInfo.range := by
        rw [ih.2 (i + 1) (off + ctrlPktSize q) (T.newBatch i off q) acc q c' cs' rfl rfl hq, layout,
          List.reverse_cons, batchSize_cons, Nat.add_assoc, List.append_assoc]
        rfl
      refine ⟨fun i fresh off acc hfresh => ?_, fun i off b older p c cs htile hoff hbatch => ?_⟩
      · rw [hq]
        cases acc with
        | nil => exact hnew i off []
        | cons b older =>
          rw [collect, if_neg fun h => ?_]
          · exact hnew i off (b :: older)
          · rcases hfresh with hfresh | hfresh
            · rw [hfresh] at h
              cases h.2.1
            · cases hfresh
      · rw [T.batchesOf_packet_packet p q rest hq] at hbatch
        rw [collect]
        by_cases hjoin : T.Joins p q
        · rw [if_pos hjoin] at hbatch
          obtain ⟨rfl, rfl⟩ : q :: c' = c ∧ cs' = cs := by simpa using hbatch
          rw [if_pos ⟨hjoin.1, rfl, htile.trans hjoin.2⟩, batchSize_cons, ← Nat.add_assoc,
            ← Nat.add_assoc]
          exact ih.2 (i + 1) (off + ctrlPktSize q)
            { b with totalSize := b.totalSize + ctrlPktSize q } older q c' cs'
            (htile.trans hjoin.2) (by dsimp only; omega) hq
        · rw [if_neg hjoin] at hbatch
          obtain ⟨rfl, rfl⟩ : [] = c ∧ (q :: c') :: cs' = cs := by simpa using hbatch
          rw [if_neg fun h => hjoin ⟨h.1, htile.symm.trans h.2.2⟩]
          exact hnew i off (b :: older)

/-- **The first pass lays the batches out** by the sizes it counts. -/
theorem collect_ranges (ops : List (SeqOp α)) :
    ((T.collect 0 true 0 [] ops).reverse).map BatchInfo.range =
      layout batchSize 0 (T.batchesOf ops) := by
  rw [List.map_reverse, (T.collect_ranges_aux ops).1 0 true 0 [] (.inl rfl), List.map_nil,
    List.append_nil, List.reverse_reverse]

/-! ## The second pass -/

/-- The places of some of the packets, in order. -/
def PlacesAt : ℕ → List (SeqOp α) → List ℕ → Prop
  | _, [], l => l = []
  | i, .other _ :: rest, l => PlacesAt (i + 1) rest l
  | i, .packet _ :: rest, l => PlacesAt (i + 1) rest l ∨ ∃ l', l = i :: l' ∧ PlacesAt (i + 1) rest l'

theorem PlacesAt.le {i : ℕ} {ops : List (SeqOp α)} {l : List ℕ} (h : PlacesAt i ops l) :
    ∀ x ∈ l, i ≤ x := by
  induction ops generalizing i l with
  | nil =>
    intro x hx
    rw [show l = [] from h] at hx
    cases hx
  | cons o rest ih =>
    cases o with
    | other a => exact fun x hx => (Nat.le_succ i).trans (ih h x hx)
    | packet p =>
      rcases h with h | ⟨l', rfl, h⟩
      · exact fun x hx => (Nat.le_succ i).trans (ih h x hx)
      · intro x hx
        rcases List.mem_cons.1 hx with rfl | hx
        · exact le_rfl
        · exact (Nat.le_succ i).trans (ih h x hx)

theorem collect_places (ops : List (SeqOp α)) (i : ℕ) (fresh : Bool) (off : ℕ)
    (acc : List BatchInfo) : ∃ l, PlacesAt i ops l ∧
      (T.collect i fresh off acc ops).map BatchInfo.first =
        l.reverse ++ acc.map BatchInfo.first := by
  induction ops generalizing i fresh off acc with
  | nil => exact ⟨[], rfl, rfl⟩
  | cons o rest ih =>
    cases o with
    | other a => exact ih (i + 1) true off acc
    | packet p =>
      have hnew : ∃ l, PlacesAt i (.packet p :: rest) l ∧
          (T.collect (i + 1) false (off + ctrlPktSize p) (T.newBatch i off p :: acc) rest).map
            BatchInfo.first = l.reverse ++ acc.map BatchInfo.first := by
        obtain ⟨l, hl, hcollect⟩ := ih (i + 1) false (off + ctrlPktSize p)
          (T.newBatch i off p :: acc)
        refine ⟨i :: l, .inr ⟨l, rfl, hl⟩, ?_⟩
        rw [hcollect, List.reverse_cons, List.append_assoc]
        rfl
      cases acc with
      | nil => exact hnew
      | cons b older =>
        rw [collect]
        split_ifs
        · obtain ⟨l, hl, hcollect⟩ := ih (i + 1) false (off + ctrlPktSize p)
            ({ b with totalSize := b.totalSize + ctrlPktSize p } :: older)
          exact ⟨l, .inl hl, hcollect⟩
        · exact hnew

/-- **The second pass sends every batch.** -/
theorem emit_ranges (ops : List (SeqOp α)) (i : ℕ) (batches : List BatchInfo)
    (h : PlacesAt i ops (batches.map BatchInfo.first)) :
    ranges (T.emit i batches ops) = batches.map BatchInfo.range := by
  induction ops generalizing i batches with
  | nil =>
    rw [List.map_eq_nil_iff.1 h]
    rfl
  | cons o rest ih =>
    cases o with
    | other a => exact ih (i + 1) batches h
    | packet p =>
      cases batches with
      | nil =>
        refine ih (i + 1) [] ?_
        rcases h with h | ⟨l', hl, -⟩
        · exact h
        · cases hl
      | cons b batches =>
        rw [emit]
        rcases h with h | ⟨l', hl, h⟩
        · rw [if_pos]
          · exact ih (i + 1) (b :: batches) h
          · have hle := h.le b.first (List.mem_map_of_mem List.mem_cons_self)
            omega
        · rw [List.map_cons, List.cons_eq_cons] at hl
          rw [if_neg (not_not.2 hl.1), ranges, List.filterMap_cons, List.filterMap_cons]
          change b.range :: ranges (T.emit (i + 1) batches rest) = _
          rw [ih (i + 1) batches (hl.2 ▸ h), List.map_cons]

theorem ctrlPacketToDma_ranges {ops : List (SeqOp α)} {out : List (DmaOp α)}
    (h : T.ctrlPacketToDma ops = some out) : ranges out = layout batchSize 0 (T.batchesOf ops) := by
  rw [ctrlPacketToDma] at h
  split_ifs at h
  cases h
  obtain ⟨l, hl, hcollect⟩ := T.collect_places ops 0 true 0 []
  rw [T.emit_ranges ops 0, collect_ranges]
  rw [List.map_reverse, hcollect, List.map_nil, List.append_nil, List.reverse_reverse]
  exact hl

/-! ## The stream -/

def wordsOf (p : NpuControlPacketOp) : List Word := (T.packetWords p).toOption.getD []

/-- **The stream is the words of the packets.** -/
theorem translate_eq {ops : List (SeqOp α)} {stream : List Word}
    (h : T.translateControlPackets ops = .ok stream) :
    (∀ p ∈ packets ops, T.packetWords p = .ok (T.wordsOf p)) ∧
      stream = (packets ops).flatMap T.wordsOf := by
  induction ops generalizing stream with
  | nil =>
    cases h
    exact ⟨fun p hp => absurd hp List.not_mem_nil, rfl⟩
  | cons o rest ih =>
    cases o with
    | other a => exact ih h
    | packet p =>
      rw [translateControlPackets] at h
      cases hp : T.packetWords p with
      | error e =>
        rw [hp] at h
        cases h
      | ok words =>
        rw [hp] at h
        cases hrest : T.translateControlPackets rest with
        | error e =>
          rw [hrest] at h
          cases h
        | ok stream' =>
          rw [hrest] at h
          cases h
          obtain ⟨hwords, hstream⟩ := ih hrest
          have hof : T.wordsOf p = words := by rw [wordsOf, hp]; rfl
          refine ⟨List.forall_mem_cons.2 ⟨hof ▸ hp, hwords⟩, ?_⟩
          change words ++ stream' = (p :: packets rest).flatMap T.wordsOf
          rw [List.flatMap_cons, hof, hstream]

theorem packetWords_length {p : NpuControlPacketOp} {words : List Word}
    (h : T.packetWords p = .ok words) :
    (p.data.isSome → words.length = ctrlPktSize p) ∧
      (p.data.isSome = false → words.length < ctrlPktSize p) := by
  rw [packetWords] at h
  rw [ctrlPktSize]
  cases hdata : p.data with
  | some data =>
    rw [hdata] at h
    refine ⟨fun _ => ?_, fun hnone => by cases hnone⟩
    simp only [Option.isNone_some, Bool.false_and, Bool.false_eq_true, if_false, Option.map_some,
      Option.getD_some] at h
    split_ifs at h <;> cases h <;> simp
  | none =>
    rw [hdata] at h
    refine ⟨fun hsome => by (cases hsome), fun _ => ?_⟩
    cases hlen : p.length with
    | none =>
      rw [hlen] at h
      cases h
    | some length =>
      rw [hlen] at h
      simp only [Option.isNone_none, Option.isSome_some, Bool.and_self, if_true, Option.map_some,
        Option.getD_some, Option.map_none, Option.getD_none] at h
      split_ifs at h
      cases h
      simp
      omega

/-! ## Agreement -/

/-- The layouts agree: every packet is in one batch, a DMA reads the words of its batch, and the
DMAs cover the stream in order. -/
structure LayoutAgrees (ops : List (SeqOp α)) (out : List (DmaOp α)) (stream : List Word) :
    Prop where
  batches : (T.batchesOf ops).flatten = packets ops
  reads : List.Forall₂ (fun seg batch => slice stream seg = batch.flatMap T.wordsOf)
    (ranges out) (T.batchesOf ops)
  tiles : Tiles 0 (ranges out) stream.length

/-- **The layouts agree exactly where every packet has its data.** -/
theorem ctrlPacketToDma_layout_iff {ops : List (SeqOp α)} {out : List (DmaOp α)}
    {stream : List Word} (hdma : T.ctrlPacketToDma ops = some out)
    (hstream : T.translateControlPackets ops = .ok stream) :
    T.LayoutAgrees ops out stream ↔ ∀ p ∈ packets ops, p.data.isSome := by
  have hranges := T.ctrlPacketToDma_ranges hdma
  obtain ⟨hwords, rfl⟩ := T.translate_eq hstream
  have hflat := T.batchesOf_flatten ops
  have hlength : ((packets ops).flatMap T.wordsOf).length =
      ((packets ops).map fun p => (T.wordsOf p).length).sum := List.length_flatMap
  have hcounted : ((T.batchesOf ops).map batchSize).sum = ((packets ops).map ctrlPktSize).sum := by
    rw [← hflat, List.map_flatten, List.sum_flatten, List.map_map]
    rfl
  constructor
  · intro h
    -- the DMAs read as many words as the pass counts
    have hsum := h.tiles.unique (hranges ▸ tiles_layout batchSize 0 (T.batchesOf ops))
    rw [Nat.zero_add, hcounted, hlength] at hsum
    by_contra hnone
    push Not at hnone
    obtain ⟨p, hp, hdata⟩ := hnone
    have hless : ((packets ops).map fun p => (T.wordsOf p).length).sum <
        ((packets ops).map ctrlPktSize).sum := by
      refine List.sum_lt_sum _ _ (fun q hq => ?_) ⟨p, hp, ?_⟩
      · cases hq' : q.data.isSome with
        | true => exact ((packetWords_length T (hwords q hq)).1 hq').le
        | false => exact ((packetWords_length T (hwords q hq)).2 hq').le
      · exact (packetWords_length T (hwords p hp)).2 (by simpa using hdata)
    omega
  · intro hdata
    have hsize : ∀ batch ∈ T.batchesOf ops,
        (batch.flatMap T.wordsOf).length = batchSize batch := by
      intro batch hbatch
      rw [List.length_flatMap, batchSize]
      congr 1
      refine List.map_congr_left fun p hp => ?_
      have hmem : p ∈ packets ops := hflat ▸ List.mem_flatten_of_mem hbatch hp
      exact (packetWords_length T (hwords p hmem)).1 (hdata p hmem)
    have hstream' : (packets ops).flatMap T.wordsOf =
        (T.batchesOf ops).flatMap fun batch => batch.flatMap T.wordsOf := by
      rw [← hflat, List.flatten_eq_flatMap, List.flatMap_assoc]
      rfl
    refine ⟨hflat, ?_, ?_⟩
    · rw [hranges, hstream']
      exact layout_reads hsize []
    · rw [hranges]
      have htiles := tiles_layout batchSize 0 (T.batchesOf ops)
      rwa [Nat.zero_add, hcounted, ← List.map_congr_left fun p hp =>
        (packetWords_length T (hwords p hp)).1 (hdata p hp), ← hlength] at htiles

/-- An AIE2 device whose controllers all have the id 27. -/
def npu1 : CtrlTarget where
  arch := .AIE2
  rowShift := 20
  columnShift := 25
  rowToShimChan _ := 0
  controllerId _ _ := some (0, 27)

def sampleWrites : List (SeqOp Unit) :=
  [.packet { address := 0x1F000, data := some [2] }, .other (),
    .packet { address := 0x1F020, opcode := 2, streamId := 9, data := some [3, 4, 5, 6] }]

theorem sampleWrites_layout : ∃ out stream, npu1.ctrlPacketToDma sampleWrites = some out ∧
    npu1.translateControlPackets sampleWrites = .ok stream ∧
      ranges out = [(0, 3), (3, 6)] ∧ npu1.LayoutAgrees sampleWrites out stream := by
  refine ⟨_, _, rfl, rfl, rfl, ?_⟩
  exact (npu1.ctrlPacketToDma_layout_iff rfl rfl).mpr (by decide)

def sampleRead : List (SeqOp Unit) :=
  [.packet { address := 0x400, opcode := 1, streamId := 2, data := none, length := some 4 },
    .packet { address := 0x1F000, data := some [2] }]

/-- The DMA of the read takes four words too many, and the write's starts behind the stream. -/
theorem sampleRead_layout : ∃ out stream, npu1.ctrlPacketToDma sampleRead = some out ∧
    npu1.translateControlPackets sampleRead = .ok stream ∧ stream.length = 5 ∧
      ranges out = [(0, 6), (6, 3)] ∧ ¬ npu1.LayoutAgrees sampleRead out stream := by
  refine ⟨_, _, rfl, rfl, rfl, rfl, fun h => ?_⟩
  have htiles : Tiles 0 [(0, 6), (6, 3)] 5 := h.tiles
  simp [Tiles] at htiles

end CtrlTarget

end MlirAie.CtrlPkt
