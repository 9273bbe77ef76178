import MlirAie.Bd.EncodeExact

/-!
# The words of a descriptor

A descriptor is written as words, in which a layout gives each field its bits: from constants as an
`npu.writebd`, or from runtime values that are masked and shifted when the sequence runs.

* `writeBdWords`, `packBdWords`: the two packers;
* **`toNat_readField_writeBdWords`**: the hardware reads each operand, as far as its field goes;
* **`writeBdWords_writeBd`**: both packers write the same words for the same values.
-/

namespace MlirAie.Bd

/-! ## Fields in words -/

abbrev FieldValue := DmaBdField × BitVec 32

def placed (f : FieldValue) : BitVec 32 := f.1.place (f.2.setWidth 64)

/-- The tile has the field, in word `k`. -/
def inWord (k : ℕ) (f : FieldValue) : Bool := f.1.existsField && f.1.word == k

/-- `set`: the value of a field that the tile has. -/
def setField (words : List (BitVec 32)) (f : FieldValue) : List (BitVec 32) :=
  if f.1.existsField then words.modify f.1.word (· ||| placed f) else words

/-- What the hardware reads at a field. -/
def readField (words : List (BitVec 32)) (field : DmaBdField) : BitVec 32 :=
  (words.getD field.word 0 >>> field.shift) &&& field.mask

/-- The encoding of a burst length, `0` for the longest. -/
def getShimBurstLengthEncoding (tm : AIETargetModel) (burstLength : ℕ) : ℕ :=
  let bel := tm.getShimBurstEncodingsAndLengths
  ((if burstLength = 0 then bel.argmax Prod.snd
    else bel.find? fun p => p.2 == burstLength).map Prod.fst).getD 0

/-! ## Constant operands -/

/-- `npu.writebd`, each operand as the field holds it. -/
structure NpuWriteBdOp where
  column : ℤ
  row : ℤ
  (bufferLength bufferOffset enablePacket packetType packetId outOfOrderId d0Size
    d0Stride d1Size d1Stride d2Stride iterationCurrent iterationSize
    iterationStride d0ZeroBefore d1ZeroBefore d2ZeroBefore d0ZeroAfter
    d1ZeroAfter d2ZeroAfter : BitVec 32 := 0)
  burstLength : ℕ := 0
  axcache : BitVec 32 := 2
  (nextBd useNextBd validBd lockRelVal lockRelId lockAcqEnable lockAcqVal
    lockAcqId : BitVec 32 := 0)

namespace NpuWriteBdOp

variable (tm : AIETargetModel) (op : NpuWriteBdOp)

/-- The fields in the order they are set; a core tile's offset is in words. -/
def fields (l : DmaBdLayout) : List FieldValue :=
  [(l.bufferLength, op.bufferLength),
    (l.bufferOffset,
      if tm.isCoreTile op.column op.row then op.bufferOffset / 4 else op.bufferOffset),
    (l.enablePacket, op.enablePacket), (l.packetType, op.packetType), (l.packetId, op.packetId),
    (l.outOfOrderId, op.outOfOrderId), (l.d0Size, op.d0Size), (l.d0Stride, op.d0Stride),
    (l.d1Size, op.d1Size), (l.d1Stride, op.d1Stride), (l.d2Stride, op.d2Stride),
    (l.iterationCurrent, op.iterationCurrent), (l.iterationSize, op.iterationSize),
    (l.iterationStride, op.iterationStride), (l.d0ZeroBefore, op.d0ZeroBefore),
    (l.d1ZeroBefore, op.d1ZeroBefore), (l.d2ZeroBefore, op.d2ZeroBefore),
    (l.d0ZeroAfter, op.d0ZeroAfter), (l.d1ZeroAfter, op.d1ZeroAfter),
    (l.d2ZeroAfter, op.d2ZeroAfter),
    (l.burstLength, BitVec.ofNat 32 (getShimBurstLengthEncoding tm op.burstLength)),
    (l.axcache, op.axcache), (l.nextBd, op.nextBd), (l.useNextBd, op.useNextBd),
    (l.validBd, op.validBd), (l.lockRelValue, op.lockRelVal), (l.lockRelId, op.lockRelId),
    (l.lockAcqEnable, op.lockAcqEnable), (l.lockAcqValue, op.lockAcqVal),
    (l.lockAcqId, op.lockAcqId)]

def padded : Bool :=
  [op.d0ZeroBefore, op.d1ZeroBefore, op.d2ZeroBefore, op.d0ZeroAfter, op.d1ZeroAfter,
    op.d2ZeroAfter].any (· != 0)

/-- `WriteBdToBlockWritePattern`: the words of the block write. -/
def writeBdWords : Except String (List (BitVec 32)) :=
  match tm.getDmaBdLayout (tm.getTileType op.column op.row) with
  | none => .error "has no buffer descriptor layout on this tile"
  | some layout =>
    if !tm.isMemTile op.column op.row && op.padded then
      .error "Zero padding is only available on MemTile"
    else .ok ((op.fields tm layout).foldl setField (List.replicate layout.numWords 0))

end NpuWriteBdOp

/-! ## Runtime operands -/

/-- The fields a transfer does not give; those with a runtime value take it. -/
structure BdTemplateFields where
  (useNextBd nextBdId enablePacket packetId packetType outOfOrderId
    iterationCurrent lockRelVal lockRelId lockAcqEnable lockAcqVal lockAcqId : BitVec 32 := 0)
  (nextBdIdVal lockRelValVal lockAcqValVal : Option (BitVec 32) := none)

/-- A value, masked and shifted when the sequence runs. -/
def placeValue (f : FieldValue) : BitVec 32 :=
  let masked : BitVec 32 := if f.1.mask ≠ 0xFFFFFFFF then f.2 &&& f.1.mask else f.2
  if f.1.shift > 0 then masked <<< f.1.shift else masked

def buildBdWord (fields : List FieldValue) : BitVec 32 :=
  fields.foldl (fun result f => result ||| placeValue f) 0

/-- One word of constants and of runtime fields; a field that is the whole word is not masked. -/
def packWord (constWord : BitVec 32) : List FieldValue → BitVec 32
  | [] => constWord
  | f :: fields =>
    if constWord = 0 ∧ fields = [] ∧ f.1.mask = 0xFFFFFFFF ∧ f.1.shift = 0 then f.2
    else
      let word := buildBdWord (f :: fields)
      if constWord ≠ 0 then constWord ||| word else word

namespace BdTemplateFields

variable (f : BdTemplateFields) (e : EncodedBd)

/-- A field that is set, unless it is added with a runtime value. -/
def constantOr (field : DmaBdField) (value : BitVec 32) (runtime : Option (BitVec 32)) :
    List FieldValue :=
  if runtime.isSome then [] else [(field, value)]

def constants (tm : AIETargetModel) (l : DmaBdLayout) (burstLength : ℕ) (axcache : BitVec 32) :
    List FieldValue :=
  [(l.enablePacket, f.enablePacket), (l.packetType, f.packetType), (l.packetId, f.packetId),
    (l.outOfOrderId, f.outOfOrderId), (l.iterationCurrent, f.iterationCurrent),
    (l.burstLength, BitVec.ofNat 32 (getShimBurstLengthEncoding tm burstLength)),
    (l.axcache, axcache)] ++
  constantOr l.nextBd f.nextBdId f.nextBdIdVal ++ [(l.useNextBd, f.useNextBd), (l.validBd, 1)] ++
  constantOr l.lockRelValue f.lockRelVal f.lockRelValVal ++
  [(l.lockRelId, f.lockRelId), (l.lockAcqEnable, f.lockAcqEnable)] ++
  constantOr l.lockAcqValue f.lockAcqVal f.lockAcqValVal ++ [(l.lockAcqId, f.lockAcqId)]

def runtime (l : DmaBdLayout) : List FieldValue :=
  f.nextBdIdVal.toList.map (l.nextBd, ·) ++ f.lockRelValVal.toList.map (l.lockRelValue, ·) ++
    f.lockAcqValVal.toList.map (l.lockAcqValue, ·) ++ e.runtimeFields l

/-- **The packer of runtime values.** -/
def packBdWords (tm : AIETargetModel) (l : DmaBdLayout) (burstLength : ℕ) (axcache : BitVec 32) :
    List (BitVec 32) :=
  ((f.constants tm l burstLength axcache).foldl setField (List.replicate l.numWords 0)).mapIdx
    fun i constWord => packWord constWord
      ((f.runtime e l).filter (inWord i))

/-- The `npu.writebd` with the same values. -/
def writeBd (column row : ℤ) (burstLength : ℕ) (axcache : BitVec 32) : NpuWriteBdOp where
  column := column
  row := row
  bufferLength := e.bufLen
  enablePacket := f.enablePacket
  packetType := f.packetType
  packetId := f.packetId
  outOfOrderId := f.outOfOrderId
  d0Size := if e.isLinear then 0 else e.hwS 0
  d0Stride := if e.isLinear then 0 else e.hwT 0
  d1Size := if e.isLinear then 0 else e.hwS 1
  d1Stride := if e.isLinear then 0 else e.hwT 1
  d2Stride := if e.isLinear then 0 else e.hwT 2
  iterationCurrent := f.iterationCurrent
  iterationSize := e.iterSizeField
  iterationStride := e.hwT 3
  burstLength := burstLength
  axcache := axcache
  nextBd := f.nextBdIdVal.getD f.nextBdId
  useNextBd := f.useNextBd
  validBd := 1
  lockRelVal := f.lockRelValVal.getD f.lockRelVal
  lockRelId := f.lockRelId
  lockAcqEnable := f.lockAcqEnable
  lockAcqVal := f.lockAcqValVal.getD f.lockAcqVal
  lockAcqId := f.lockAcqId

end BdTemplateFields

/-! ## The bits of a word -/

def orFields (fs : List FieldValue) (w : BitVec 32) : BitVec 32 :=
  fs.foldl (fun w f => w ||| placed f) w

def Sets (f : FieldValue) (k i : ℕ) : Prop :=
  inWord k f = true ∧ (placed f).getLsbD i = true

theorem getLsbD_orFields (fs : List FieldValue) (w : BitVec 32) (i : ℕ) :
    (orFields fs w).getLsbD i = true ↔
      w.getLsbD i = true ∨ ∃ f ∈ fs, (placed f).getLsbD i = true := by
  unfold orFields
  induction fs generalizing w with
  | nil => simp
  | cons f fs ih => simp [ih, or_assoc]

theorem length_foldl_setField (fs : List FieldValue) (words : List (BitVec 32)) :
    (fs.foldl setField words).length = words.length := by
  induction fs generalizing words with
  | nil => rfl
  | cons f fs ih =>
    rw [List.foldl_cons, ih, setField]
    split_ifs <;> simp

theorem foldl_setField (fs : List FieldValue) {words : List (BitVec 32)} {k : ℕ}
    (hk : k < words.length) :
    (fs.foldl setField words).getD k 0 =
      orFields (fs.filter (inWord k)) (words.getD k 0) := by
  induction fs generalizing words with
  | nil => rfl
  | cons f fs ih =>
    rw [List.foldl_cons, setField]
    split_ifs with hexists
    · rw [ih (by simpa using hk)]
      by_cases hword : f.1.word = k
      · simp [inWord, orFields, hexists, hword, List.getElem?_eq_getElem hk]
      · simp [inWord, hword]
    · rw [ih hk]
      simp [inWord, hexists]

theorem getLsbD_foldl_setField {fs : List FieldValue} {n k i : ℕ} (hk : k < n) :
    ((fs.foldl setField (List.replicate n 0)).getD k 0).getLsbD i = true ↔
      ∃ f ∈ fs, Sets f k i := by
  rw [foldl_setField fs (by simpa using hk), getLsbD_orFields]
  simp [Sets, hk, and_assoc]

theorem placed_eq {f : FieldValue} (h : f.1.existsField = true) :
    placed f = (f.2 &&& f.1.mask) <<< f.1.shift := by
  simp [placed, DmaBdField.place, h]

theorem placeValue_eq {f : FieldValue} (h : f.1.existsField = true) : placeValue f = placed f := by
  have hmasked : (if f.1.mask ≠ 0xFFFFFFFF then f.2 &&& f.1.mask else f.2) = f.2 &&& f.1.mask := by
    split_ifs with hmask
    · rfl
    · rw [not_not.1 hmask]
      exact (BitVec.and_allOnes).symm
  rw [placed_eq h, placeValue, hmasked]
  split_ifs with hshift
  · rfl
  · rw [Nat.eq_zero_of_not_pos hshift, BitVec.shiftLeft_zero]

theorem buildBdWord_eq {fs : List FieldValue}
    (h : ∀ f ∈ fs, f.1.existsField = true) : buildBdWord fs = orFields fs 0 :=
  List.foldl_ext _ _ _ fun w f hf => by rw [placeValue_eq (h f hf)]

/-- Whichever way a word is emitted, it is the constants and the runtime fields. -/
theorem getLsbD_packWord {fs : List FieldValue}
    (h : ∀ f ∈ fs, f.1.existsField = true) (c : BitVec 32) (i : ℕ) :
    (packWord c fs).getLsbD i = true ↔
      c.getLsbD i = true ∨ ∃ f ∈ fs, (placed f).getLsbD i = true := by
  cases fs with
  | nil => simp [packWord]
  | cons f fs =>
    rw [packWord, buildBdWord_eq h]
    split_ifs with hwhole hc
    · obtain ⟨rfl, rfl, hmask, hshift⟩ := hwhole
      have hvalue := placeValue_eq (h f List.mem_cons_self)
      simp only [placeValue, hmask, hshift, ne_eq, not_true, if_false, lt_irrefl]
        at hvalue
      simp [← hvalue]
    · rw [BitVec.getLsbD_or, Bool.or_eq_true, getLsbD_orFields]
      simp
    · rw [getLsbD_orFields, not_not.1 hc]

/-! ## Both packers -/

theorem not_sets_zero (field : DmaBdField) (k i : ℕ) : ¬ Sets (field, 0) k i := by
  rintro ⟨-, hbit⟩
  simp [placed, DmaBdField.place] at hbit

/-- A field that has a constant or a runtime value has one of them. -/
theorem sets_constantOr (field : DmaBdField) (value : BitVec 32) (runtime : Option (BitVec 32))
    (k i : ℕ) :
    ((∃ g ∈ BdTemplateFields.constantOr field value runtime, Sets g k i) ∨
      ∃ g ∈ runtime.toList.map (field, ·), Sets g k i) ↔
      Sets (field, runtime.getD value) k i := by
  cases runtime <;> simp [BdTemplateFields.constantOr]

theorem exists_sets_writeBd (tm : AIETargetModel) (l : DmaBdLayout) (f : BdTemplateFields)
    (e : EncodedBd) (column row : ℤ) (burstLength : ℕ) (axcache : BitVec 32) (k i : ℕ) :
    (∃ g ∈ (f.writeBd e column row burstLength axcache).fields tm l, Sets g k i) ↔
      ∃ g ∈ f.constants tm l burstLength axcache ++ f.runtime e l, Sets g k i := by
  have hzero : (0 : BitVec 32) / 4 = 0 := rfl
  simp only [NpuWriteBdOp.fields, BdTemplateFields.writeBd, BdTemplateFields.constants,
    BdTemplateFields.runtime, EncodedBd.runtimeFields, hzero, ite_self, List.mem_append,
    or_and_right, exists_or, List.exists_mem_cons_iff, List.not_mem_nil, false_and, exists_false,
    not_sets_zero, false_or, or_false, ← sets_constantOr l.nextBd, ← sets_constantOr l.lockRelValue,
    ← sets_constantOr l.lockAcqValue]
  cases e.isLinear
  · simp only [Bool.false_eq_true, if_false, List.exists_mem_cons_iff, List.not_mem_nil, false_and,
      exists_false, or_false, or_assoc]
    grind
  · simp only [if_true, List.not_mem_nil, false_and, exists_false, not_sets_zero, false_or, or_false,
      or_assoc]
    grind

theorem getLsbD_packBdWords {tm : AIETargetModel} {l : DmaBdLayout} {f : BdTemplateFields}
    {e : EncodedBd} {burstLength : ℕ} {axcache : BitVec 32} {k i : ℕ} (hk : k < l.numWords) :
    ((f.packBdWords e tm l burstLength axcache).getD k 0).getLsbD i = true ↔
      ∃ g ∈ f.constants tm l burstLength axcache ++ f.runtime e l, Sets g k i := by
  have hlen : k < ((f.constants tm l burstLength axcache).foldl setField
      (List.replicate l.numWords 0)).length := by
    rw [length_foldl_setField, List.length_replicate]
    exact hk
  have hexists : ∀ g ∈ (f.runtime e l).filter (inWord k),
      g.1.existsField = true := fun g hg => (Bool.and_eq_true_iff.1 (List.mem_filter.1 hg).2).1
  rw [BdTemplateFields.packBdWords, List.getD_eq_getElem?_getD, List.getElem?_mapIdx,
    List.getElem?_eq_getElem hlen, Option.map_some, Option.getD_some, getLsbD_packWord hexists,
    ← List.getD_eq_getElem _ 0 hlen, getLsbD_foldl_setField hk]
  simp [Sets, or_and_right, exists_or, and_assoc]

/-- **Both packers write the same words for the same values**, whichever of them are runtime. -/
theorem writeBdWords_writeBd (tm : AIETargetModel) (f : BdTemplateFields) (e : EncodedBd)
    (column row : ℤ) (burstLength : ℕ) (axcache : BitVec 32) :
    (f.writeBd e column row burstLength axcache).writeBdWords tm =
      match tm.getDmaBdLayout (tm.getTileType column row) with
      | none => .error "has no buffer descriptor layout on this tile"
      | some layout => .ok (f.packBdWords e tm layout burstLength axcache) := by
  have hpadded : (f.writeBd e column row burstLength axcache).padded = false := rfl
  show (match tm.getDmaBdLayout (tm.getTileType column row) with
    | none => _
    | some layout => _) = _
  cases tm.getDmaBdLayout (tm.getTileType column row) with
  | none => rfl
  | some layout =>
    have hlength := length_foldl_setField
    refine (if_neg (by simp [hpadded])).trans (congrArg Except.ok (List.ext_getElem ?_ ?_))
    · simp [BdTemplateFields.packBdWords, hlength]
    · intro k hk hk'
      rw [← List.getD_eq_getElem _ 0 hk, ← List.getD_eq_getElem _ 0 hk']
      have hn : k < layout.numWords := by simpa [hlength] using hk
      refine BitVec.eq_of_getLsbD_eq fun i _ => Bool.eq_iff_iff.2 ?_
      rw [getLsbD_foldl_setField hn, getLsbD_packBdWords hn, exists_sets_writeBd]

/-! ## What the hardware reads -/

/-- Two fields share no bit. -/
def Apart (f g : DmaBdField) : Prop :=
  f.word ≠ g.word ∨ f.shift + f.width ≤ g.shift ∨ g.shift + g.width ≤ f.shift

instance : DecidableRel Apart := fun _ _ => inferInstanceAs (Decidable (_ ∨ _))

theorem Apart.symm {f g : DmaBdField} (h : Apart f g) : Apart g f :=
  h.imp Ne.symm Or.symm

instance : Std.Symm fun f g : FieldValue => Apart f.1 g.1 := ⟨fun _ _ => Apart.symm⟩

theorem getLsbD_and_mask (field : DmaBdField) (value : BitVec 32) (i : ℕ) :
    (value &&& field.mask).getLsbD i = true ↔ i < field.width ∧ value.getLsbD i = true := by
  rw [BitVec.getLsbD, toNat_and_mask, Nat.testBit_mod_two_pow, Bool.and_eq_true, decide_eq_true_iff]
  rfl

theorem getLsbD_placed {f : FieldValue} (h : f.1.existsField = true) (j : ℕ) :
    (placed f).getLsbD j = true ↔
      j < 32 ∧ f.1.shift ≤ j ∧ j - f.1.shift < f.1.width ∧ f.2.getLsbD (j - f.1.shift) = true := by
  rw [placed_eq h, BitVec.getLsbD_shiftLeft, Bool.and_eq_true, Bool.and_eq_true, getLsbD_and_mask]
  simp [and_assoc]

/-- **A field reads back as its value**, as far as it goes, where no other field shares its bits. -/
theorem readField_foldl {fs : List FieldValue} {n : ℕ}
    (hapart : fs.Pairwise fun f g => Apart f.1 g.1) {f : FieldValue} (hf : f ∈ fs)
    (hexists : f.1.existsField = true) (hword : f.1.word < n) (hfits : f.1.shift + f.1.width ≤ 32) :
    readField (fs.foldl setField (List.replicate n 0)) f.1 = f.2 &&& f.1.mask := by
  refine BitVec.eq_of_getLsbD_eq fun i _ => Bool.eq_iff_iff.2 ?_
  rw [readField, getLsbD_and_mask, getLsbD_and_mask, BitVec.getLsbD_ushiftRight,
    getLsbD_foldl_setField hword]
  refine and_congr_right fun hi => ⟨?_, fun hbit => ⟨f, hf, by simp [inWord, hexists], ?_⟩⟩
  · rintro ⟨g, hg, hin, hbit⟩
    obtain ⟨hexists', hsame⟩ := Bool.and_eq_true_iff.1 hin
    obtain ⟨-, hle, hlt, hbit⟩ := (getLsbD_placed hexists' _).1 hbit
    by_cases heq : g = f
    · subst heq
      rwa [Nat.add_sub_cancel_left] at hbit
    · have hpair : Apart g.1 f.1 := hapart.forall hg hf heq
      rcases hpair with hne | hlow | hhigh
      · exact absurd (beq_iff_eq.1 hsame) hne
      · omega
      · omega
  · rw [getLsbD_placed hexists, Nat.add_sub_cancel_left]
    exact ⟨by omega, by omega, hi, hbit⟩

/-- The layouts of the AIE2 tiles give each field bits of its own. -/
theorem fields_apart {tm : AIETargetModel} {op : NpuWriteBdOp} {tile : AIETileType}
    {l : DmaBdLayout} (h : AIE2.getDmaBdLayout tile = some l) :
    ((op.fields tm l).Pairwise fun f g => Apart f.1 g.1) ∧
      ∀ f ∈ op.fields tm l, f.1.word < l.numWords ∧ f.1.shift + f.1.width ≤ 32 := by
  have hfst : ((op.fields tm l).map Prod.fst).Pairwise Apart ∧
      ∀ f ∈ (op.fields tm l).map Prod.fst, f.word < l.numWords ∧ f.shift + f.width ≤ 32 := by
    simp only [NpuWriteBdOp.fields, List.map]
    cases tile <;> cases h <;> decide
  exact ⟨List.pairwise_map.1 hfst.1, fun f hf => hfst.2 _ (List.mem_map_of_mem hf)⟩

/-- **The hardware reads each operand**, as far as its field goes. -/
theorem toNat_readField_writeBdWords {tileType : ℤ → ℤ → AIETileType} {bursts : List (ℕ × ℕ)}
    {op : NpuWriteBdOp} {words : List (BitVec 32)}
    (h : op.writeBdWords (AIE2TargetModel tileType bursts) = .ok words) :
    ∃ layout, AIE2.getDmaBdLayout (tileType op.column op.row) = some layout ∧
      words.length = layout.numWords ∧
      ∀ f ∈ op.fields (AIE2TargetModel tileType bursts) layout, f.1.existsField = true →
        (readField words f.1).toNat = f.2.toNat % 2 ^ f.1.width := by
  rw [NpuWriteBdOp.writeBdWords] at h
  cases hlayout : (AIE2TargetModel tileType bursts).getDmaBdLayout
      ((AIE2TargetModel tileType bursts).getTileType op.column op.row) with
  | none =>
    rw [hlayout] at h
    cases h
  | some layout =>
    simp only [hlayout] at h
    split_ifs at h
    cases h
    obtain ⟨hapart, hlaid⟩ := @fields_apart (AIE2TargetModel tileType bursts) op _ _ hlayout
    refine ⟨layout, hlayout, by rw [length_foldl_setField, List.length_replicate],
      fun f hf hexists => ?_⟩
    obtain ⟨hword, hfits⟩ := hlaid f hf
    rw [readField_foldl hapart hf hexists hword hfits, toNat_and_mask]

def coreDescriptor : NpuWriteBdOp :=
  { column := 0, row := 2, bufferLength := 1024, bufferOffset := 64, validBd := 1 }

def coreWords : List (BitVec 32) := [16 * 2 ^ 14 + 1024, 0, 0, 0, 0, 2 ^ 25]

theorem coreWords_read : ∃ layout, AIE2.getDmaBdLayout .CoreTile = some layout ∧
    coreWords.length = layout.numWords ∧
    ∀ f ∈ coreDescriptor.fields (AIE2TargetModel (fun _ _ => .CoreTile) []) layout,
      f.1.existsField = true → (readField coreWords f.1).toNat = f.2.toNat % 2 ^ f.1.width :=
  @toNat_readField_writeBdWords (fun _ _ => .CoreTile) [] coreDescriptor coreWords (by decide)

end MlirAie.Bd
