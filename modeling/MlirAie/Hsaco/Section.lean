import MlirAie.Lib.Lists
import MlirAie.Lib.StructFormat
import Mathlib

/-!
# The kernel section of an hsaco

A header, a table of kernels, their names, and a pool of blobs that are stored once each.

* `Pool.place`: where a blob is in the pool;
* **`buildSection`**, **`parseSection`**: the writer and the reader, each with its checks;
* **`parseSection_buildSection`**: what is packed is read back.
-/

namespace MlirAie.Hsaco

open Lib

abbrev Bytes := List UInt8

/-! ## Layout -/

def MAGIC : ℕ := 0x4B454941

def VERSION_MAJOR : ℕ := 1

def VERSION_MINOR : ℕ := 0

def ARCHES : List String := ["aie2", "aie2p"]

/-- The widths of the header's fields, the reserved ones last. -/
def HDR : List ℕ := [4, 2, 2, 4, 4, 4, 4, 4, 4] ++ [4, 4, 4, 4]

def HDR_SIZE : ℕ := HDR.sum

def ENTRY : List ℕ := [4, 4, 4, 4, 4, 4, 4] ++ [4, 4, 4, 4]

def ENTRY_SIZE : ℕ := ENTRY.sum

def KIND_PDI_INSTS : ℕ := 0

def KIND_FULL_ELF : ℕ := 1

def KIND_COUNT : ℕ := 2

def kindName (kind : ℕ) : String :=
  if kind = KIND_PDI_INSTS then "PdiInsts" else if kind = KIND_FULL_ELF then "FullElf" else "?"

/-- `name.encode()`, which is UTF-8. -/
def encode (name : String) : Bytes := name.toByteArray.data.toList

def decode (bytes : Bytes) : Option String := String.fromUTF8? ⟨bytes.toArray⟩

/-! ## Writing -/

structure Kernel where
  name : String
  insts : Bytes
  pdi : Option Bytes
  kernargSize : Option ℤ
  numCols : Option ℤ
  kind : Option ℤ

inductive BuildError
  | unknownArch (arch : String)
  | duplicateNames (names : List String)
  | instsEmpty (name : String)
  | pdiEmpty (name : String)
  | unknownKind (name : String) (kind : ℤ)
  | fullElfPdi (name : String)
  | outOfRange (name field : String) (number : ℤ)
  | numColsRequired (name : String)
  | numColsZero (name : String)
  | structError
deriving DecidableEq

/-- `_uint32`. -/
def uint32 (value : ℤ) (field name : String) : Except BuildError ℕ :=
  if 0 ≤ value ∧ value ≤ 0xFFFFFFFF then .ok value.toNat else .error (.outOfRange name field value)

/-- The blobs in the order they are stored, and the offset of each. -/
structure Pool where
  blobs : List Bytes
  poolSize : ℕ
  blobOff : List (Bytes × ℕ)

namespace Pool

def empty : Pool := ⟨[], 0, []⟩

def bytes (pool : Pool) : Bytes := pool.blobs.flatten

/-- The offset and the size of a blob, which is stored unless it is there. -/
def place (pool : Pool) (blob : Bytes) : (ℕ × ℕ) × Pool :=
  if blob = [] then ((0, 0), pool)
  else
    match pool.blobOff.lookup blob with
    | some offset => ((offset, blob.length), pool)
    | none =>
      ((pool.poolSize, blob.length), ⟨pool.blobs ++ [blob], pool.poolSize + blob.length,
        (blob, pool.poolSize) :: pool.blobOff⟩)

end Pool

structure Entry where
  nameOffset : ℕ
  instsOffset : ℕ
  instsSize : ℕ
  pdiOffset : ℕ
  pdiSize : ℕ
  kernargSize : ℕ
  numCols : ℕ
  kind : ℕ

def Entry.fields (e : Entry) : List ℕ :=
  [e.nameOffset, e.instsOffset, e.instsSize, e.pdiOffset, e.pdiSize, e.kernargSize, e.numCols,
    e.kind, 0, 0, 0]

/-- The offsets of the names, and the names, each followed by a zero. -/
def stringTable (kernels : List Kernel) : List ℕ × Bytes :=
  kernels.foldl (fun s k => (s.1 ++ [s.2.length], s.2 ++ (encode k.name ++ [0]))) ([], [])

/-- What is checked before a kernel's numbers, and its kind. -/
def checkBlobs (k : Kernel) (instsSize pdiSize : ℕ) : Except BuildError ℕ :=
  let kind := k.kind.getD KIND_PDI_INSTS
  if instsSize = 0 then .error (.instsEmpty k.name)
  else if k.pdi = some [] then .error (.pdiEmpty k.name)
  else if ¬(0 ≤ kind ∧ kind < KIND_COUNT) then .error (.unknownKind k.name kind)
  else if kind = KIND_FULL_ELF ∧ pdiSize ≠ 0 then .error (.fullElfPdi k.name)
  else .ok kind.toNat

def columns (k : Kernel) : Except BuildError ℕ :=
  match k.numCols with
  | none => .error (.numColsRequired k.name)
  | some numCols => (uint32 numCols "num_cols" k.name).bind fun numCols =>
    if numCols = 0 then .error (.numColsZero k.name) else .ok numCols

/-- The entry of a kernel, whose blobs are placed. -/
def buildEntry (blobPoolOffset : ℕ) (pool : Pool) (k : Kernel) (nameOffset : ℕ) :
    Except BuildError (Entry × Pool) :=
  let insts := pool.place k.insts
  let pdi := insts.2.place (k.pdi.getD [])
  (checkBlobs k insts.1.2 pdi.1.2).bind fun kind =>
    (uint32 (k.kernargSize.getD 0) "kernarg_size" k.name).bind fun kernargSize =>
      (columns k).bind fun numCols => .ok
        ({ nameOffset
           instsOffset := blobPoolOffset + insts.1.1
           instsSize := insts.1.2
           pdiOffset := if pdi.1.2 ≠ 0 then blobPoolOffset + pdi.1.1 else 0
           pdiSize := pdi.1.2
           kernargSize
           numCols
           kind }, pdi.2)

/-- The entries of the kernels in order, over one pool. -/
def buildEntries (blobPoolOffset : ℕ) : Pool → List (Kernel × ℕ) →
    Except BuildError (List Entry × Pool)
  | pool, [] => .ok ([], pool)
  | pool, (k, nameOffset) :: rest =>
    (buildEntry blobPoolOffset pool k nameOffset).bind fun built =>
      (buildEntries blobPoolOffset built.2 rest).bind fun later =>
        .ok (built.1 :: later.1, later.2)

/-- `struct.pack`. -/
def structPack (format fields : List ℕ) : Except BuildError Bytes :=
  match packFields format fields with
  | some bytes => .ok bytes
  | none => .error .structError

def header (kernelCount stringTableOffset stringTableSize blobPoolOffset : ℕ) : List ℕ :=
  [MAGIC, VERSION_MAJOR, VERSION_MINOR, HDR_SIZE, kernelCount, ENTRY_SIZE, stringTableOffset,
    stringTableSize, blobPoolOffset, 0, 0, 0, 0]

/-- The names that are given more than once, sorted. -/
def repeated (kernels : List Kernel) : List String :=
  let names := kernels.map (·.name)
  (names.dedup.filter fun name => 1 < names.count name).insertionSort (· ≤ ·)

/-- **`build_section`**. -/
def buildSection (arch : String) (kernels : List Kernel) : Except BuildError Bytes :=
  if arch ∉ ARCHES then .error (.unknownArch arch)
  else if repeated kernels ≠ [] then .error (.duplicateNames (repeated kernels))
  else
    let names := stringTable kernels
    let stringTableOffset := HDR_SIZE + ENTRY_SIZE * kernels.length
    let blobPoolOffset := stringTableOffset + names.2.length
    (buildEntries blobPoolOffset Pool.empty (kernels.zip names.1)).bind fun built =>
      (structPack HDR (header kernels.length stringTableOffset names.2.length
        blobPoolOffset)).bind fun header =>
        (built.1.mapM fun e => structPack ENTRY e.fields).bind fun table =>
          .ok (header ++ (table.flatten ++ (names.2 ++ built.2.bytes)))

/-! ## Reading -/

inductive ParseError
  | smallerThanHeader
  | badMagic (magic : ℕ)
  | unsupportedVersion (major minor : ℕ)
  | entrySizeTooSmall
  | headerSizeTooSmall
  | kernelTableOutOfBounds
  | stringTableOverlaps
  | stringTableOutOfBounds
  | blobPoolOverlaps
  | blobPoolOutOfBounds
  | unknownKind (i kind : ℕ)
  | fullElfPdi (i : ℕ)
  | instsOutOfBounds (i : ℕ)
  | pdiOutOfBounds (i : ℕ)
  | nameOutside (i : ℕ)
  | nameNotTerminated (i : ℕ)
  | nameNotUtf8 (i : ℕ)
  | structError
deriving DecidableEq

structure ParsedKernel where
  name : String
  instsOffset : ℕ
  instsSize : ℕ
  hasPdi : Bool
  pdiOffset : ℕ
  pdiSize : ℕ
  kernargSize : ℕ
  numCols : ℕ
  kind : ℕ
  kindName : String
deriving DecidableEq

structure Parsed where
  archVersion : ℕ × ℕ
  kernelCount : ℕ
  kernels : List ParsedKernel
deriving DecidableEq

/-- The fields of a header that the reader uses. -/
structure Regions where
  hdrSize : ℕ
  kcount : ℕ
  kentry : ℕ
  stOff : ℕ
  stSize : ℕ
  poolOff : ℕ

def inPool (bytes : Bytes) (r : Regions) (off ln : ℕ) : Prop :=
  off ≥ r.poolOff ∧ off + ln ≤ bytes.length

instance (bytes : Bytes) (r : Regions) (off ln : ℕ) : Decidable (inPool bytes r off ln) := by
  unfold inPool
  infer_instance

/-- The name at an offset of the string table. -/
def parseName (bytes : Bytes) (r : Regions) (i nameOff : ℕ) : Except ParseError String :=
  if nameOff ≥ r.stSize then .error (.nameOutside i)
  else
    let nameAbs := r.stOff + nameOff
    match (part bytes nameAbs (r.stOff + r.stSize - nameAbs)).findIdx? (· = 0) with
    | none => .error (.nameNotTerminated i)
    | some length =>
      match decode (part bytes nameAbs length) with
      | none => .error (.nameNotUtf8 i)
      | some name => .ok name

/-- The kernel of the table's entry `i`. -/
def parseKernel (bytes : Bytes) (r : Regions) (i : ℕ) : Except ParseError ParsedKernel :=
  match unpackFields ENTRY (bytes.drop (r.hdrSize + i * r.kentry)) with
  | some [nameOff, instsOff, instsSize, pdiOff, pdiSize, kernargSize, numCols, kind, _, _, _] =>
    if kind ≥ KIND_COUNT then .error (.unknownKind i kind)
    else if kind = KIND_FULL_ELF ∧ pdiSize ≠ 0 then .error (.fullElfPdi i)
    else if instsSize = 0 ∨ ¬inPool bytes r instsOff instsSize then .error (.instsOutOfBounds i)
    else if pdiSize ≠ 0 ∧ ¬inPool bytes r pdiOff pdiSize then .error (.pdiOutOfBounds i)
    else (parseName bytes r i nameOff).bind fun name => .ok
      { name, instsOffset := instsOff, instsSize, hasPdi := decide (pdiSize ≠ 0)
        pdiOffset := pdiOff, pdiSize, kernargSize, numCols, kind, kindName := kindName kind }
  | _ => .error .structError

/-- The regions follow each other in their order, within the section. -/
def checkRegions (bytes : Bytes) (r : Regions) : Except ParseError Unit :=
  let tableEnd := r.hdrSize + r.kcount * r.kentry
  if r.kentry < ENTRY_SIZE then .error .entrySizeTooSmall
  else if r.hdrSize < HDR_SIZE then .error .headerSizeTooSmall
  else if tableEnd > bytes.length then .error .kernelTableOutOfBounds
  else if r.stOff < tableEnd then .error .stringTableOverlaps
  else if r.stOff + r.stSize > bytes.length then .error .stringTableOutOfBounds
  else if r.poolOff < r.stOff + r.stSize then .error .blobPoolOverlaps
  else if r.poolOff > bytes.length then .error .blobPoolOutOfBounds
  else .ok ()

/-- **`parse_section`**. -/
def parseSection (bytes : Bytes) : Except ParseError Parsed :=
  if bytes.length < HDR_SIZE then .error .smallerThanHeader
  else
    match unpackFields HDR bytes with
    | some [magic, vmaj, vmin, hdrSize, kcount, kentry, stOff, stSize, poolOff, _, _, _, _] =>
      let r : Regions := { hdrSize, kcount, kentry, stOff, stSize, poolOff }
      if magic ≠ MAGIC then .error (.badMagic magic)
      else if vmaj ≠ VERSION_MAJOR then .error (.unsupportedVersion vmaj vmin)
      else (checkRegions bytes r).bind fun _ =>
        ((List.range kcount).mapM (parseKernel bytes r)).bind fun kernels => .ok
          { archVersion := (vmaj, vmin), kernelCount := kcount, kernels }
    | _ => .error .structError

/-! ## Names -/

theorem decode_encode (name : String) : decode (encode name) = some name := by
  have hbytes : (⟨(encode name).toArray⟩ : ByteArray) = name.toByteArray := by
    rw [encode, Array.toArray_toList]
  rw [decode, hbytes, String.fromUTF8?, dif_pos name.isValidUTF8]
  rfl

theorem zero_notMem_utf8EncodeChar {c : Char} (h : c ≠ '\x00') :
    (0 : UInt8) ∉ String.utf8EncodeChar c := by
  have hpos : 0 < c.val.toNat := by
    refine Nat.pos_of_ne_zero fun hzero => h (Char.ext (UInt32.toNat_inj.1 ?_))
    rw [hzero]
    rfl
  have hbyte : ∀ n : ℕ, n % 256 ≠ 0 → (0 : UInt8) ≠ UInt8.ofNat n := by
    intro n hn heq
    have := congrArg UInt8.toNat heq
    rw [UInt8.toNat_ofNat'] at this
    exact hn this.symm
  unfold String.utf8EncodeChar
  simp only
  split_ifs <;> simp only [List.mem_cons, List.not_mem_nil, or_false, not_or] <;> and_intros <;>
    exact hbyte _ (by omega)

theorem zero_notMem_encode {name : String} (h : '\x00' ∉ name.toList) :
    (0 : UInt8) ∉ encode name := by
  rw [encode, ← String.utf8Encode_toList, List.utf8Encode, List.toList_data_toByteArray,
    List.mem_flatMap]
  rintro ⟨c, hc, hzero⟩
  exact zero_notMem_utf8EncodeChar (fun heq => h (heq ▸ hc)) hzero

theorem findIdx?_append_zero {name : Bytes} (h : (0 : UInt8) ∉ name) (rest : Bytes) :
    (name ++ 0 :: rest).findIdx? (· = 0) = some name.length := by
  induction name with
  | nil => rfl
  | cons b name ih =>
    rw [List.mem_cons, not_or] at h
    rw [List.cons_append, List.findIdx?_cons, if_neg (by simpa using Ne.symm h.1), ih h.2]
    rfl

def nameBytes (k : Kernel) : Bytes := encode k.name ++ [0]

/-- The offsets of names, the first of which is at `start`. -/
def nameOffsets : ℕ → List Kernel → List ℕ
  | _, [] => []
  | start, k :: ks => start :: nameOffsets (start + (nameBytes k).length) ks

attribute [local simp] nameOffsets

theorem stringTable_eq (ks : List Kernel) :
    stringTable ks = (nameOffsets 0 ks, ks.flatMap nameBytes) := by
  have hfold : ∀ offsets table, ks.foldl
      (fun s k => (s.1 ++ [s.2.length], s.2 ++ (encode k.name ++ [0]))) (offsets, table) =
      (offsets ++ nameOffsets table.length ks, table ++ ks.flatMap nameBytes) := by
    induction ks with
    | nil =>
      intro offsets table
      simp [nameOffsets]
    | cons k ks ih =>
      intro offsets table
      rw [List.foldl_cons, ih, nameOffsets, List.flatMap_cons, List.length_append,
        List.append_assoc, List.append_assoc]
      rfl
  rw [stringTable, hfold]
  rfl

theorem length_nameOffsets (start : ℕ) (ks : List Kernel) :
    (nameOffsets start ks).length = ks.length := by
  induction ks generalizing start with
  | nil => rfl
  | cons k ks ih => rw [nameOffsets, List.length_cons, ih, List.length_cons]

def NamedAt (table : Bytes) (item : Kernel × ℕ) : Prop :=
  ∃ rest, table.drop item.2 = encode item.1.name ++ 0 :: rest

theorem namedAt_of_mem {ks : List Kernel} (front : Bytes) {item : Kernel × ℕ}
    (h : item ∈ ks.zip (nameOffsets front.length ks)) :
    NamedAt (front ++ ks.flatMap nameBytes) item := by
  induction ks generalizing front with
  | nil => cases h
  | cons k ks ih =>
    rw [nameOffsets, List.zip_cons_cons, List.mem_cons] at h
    rcases h with rfl | h
    · refine ⟨ks.flatMap nameBytes, ?_⟩
      rw [List.drop_left, List.flatMap_cons, nameBytes, List.append_assoc]
      rfl
    · rw [← List.length_append] at h
      have := ih _ h
      rwa [List.append_assoc, ← List.flatMap_cons] at this

/-! ## The pool -/

/-- A blob is in the bytes, at an offset. -/
def Holds (bytes : Bytes) (offset : ℕ) (blob : Bytes) : Prop :=
  offset + blob.length ≤ bytes.length ∧ part bytes offset blob.length = blob

theorem Holds.mono {bytes bytes' blob : Bytes} {offset : ℕ} (h : Holds bytes offset blob)
    (hle : bytes <+: bytes') : Holds bytes' offset blob := by
  obtain ⟨more, rfl⟩ := hle
  refine ⟨h.1.trans ?_, ?_⟩
  · rw [List.length_append]
    omega
  · rw [part_append_left h.1, h.2]

structure Pool.Valid (pool : Pool) : Prop where
  size : pool.poolSize = pool.bytes.length
  holds : ∀ blob offset, pool.blobOff.lookup blob = some offset → Holds pool.bytes offset blob

theorem Pool.valid_empty : Pool.empty.Valid where
  size := rfl
  holds := fun _ _ h => by cases h

/-- **Placing a blob** keeps what is stored, and the blob is stored afterwards. -/
theorem Pool.Valid.place {pool : Pool} (h : pool.Valid) (blob : Bytes) :
    (pool.place blob).2.Valid ∧ pool.bytes <+: (pool.place blob).2.bytes ∧
      (pool.place blob).1.2 = blob.length ∧
      (blob ≠ [] → Holds (pool.place blob).2.bytes (pool.place blob).1.1 blob) := by
  unfold Pool.place
  split_ifs with hempty
  · refine ⟨h, List.prefix_rfl, ?_, fun hne => absurd hempty hne⟩
    rw [hempty]
    rfl
  · cases hlookup : pool.blobOff.lookup blob with
    | some offset => exact ⟨h, List.prefix_rfl, rfl, fun _ => h.holds blob offset hlookup⟩
    | none =>
      have hbytes : Pool.bytes ⟨pool.blobs ++ [blob], pool.poolSize + blob.length,
          (blob, pool.poolSize) :: pool.blobOff⟩ = pool.bytes ++ blob := by
        rw [Pool.bytes, List.flatten_append, List.flatten_singleton]
        rfl
      have hprefix : pool.bytes <+: pool.bytes ++ blob := List.prefix_append _ _
      have hblob : Holds (pool.bytes ++ blob) pool.poolSize blob := by
        rw [h.size]
        exact ⟨by rw [List.length_append], part_length _ _⟩
      refine ⟨⟨?_, fun other offset hother => ?_⟩, ?_, rfl, fun _ => ?_⟩
      · rw [hbytes, List.length_append, ← h.size]
      · rw [hbytes]
        rw [List.lookup_cons] at hother
        cases heq : other == blob with
        | true =>
          rw [heq] at hother
          cases hother
          rw [eq_of_beq heq]
          exact hblob
        | false =>
          rw [heq] at hother
          exact (h.holds other offset hother).mono hprefix
      · rw [hbytes]
        exact hprefix
      · rw [hbytes]
        exact hblob

/-! ## The entries -/

/-- What the entry of a kernel says, over a pool at an offset of the section. -/
structure Describes (blobPoolOffset : ℕ) (pool : Bytes) (item : Kernel × ℕ) (e : Entry) :
    Prop where
  name : e.nameOffset = item.2
  insts_pos : 0 < e.instsSize
  insts : ∃ offset, e.instsOffset = blobPoolOffset + offset ∧
    e.instsSize = item.1.insts.length ∧ Holds pool offset item.1.insts
  no_pdi : item.1.pdi = none → e.pdiSize = 0
  pdi : ∀ blob, item.1.pdi = some blob → 0 < e.pdiSize ∧
    ∃ offset, e.pdiOffset = blobPoolOffset + offset ∧ e.pdiSize = blob.length ∧
      Holds pool offset blob
  kernargSize : (e.kernargSize : ℤ) = item.1.kernargSize.getD 0
  numCols : item.1.numCols = some (e.numCols : ℤ)
  kind : (e.kind : ℤ) = item.1.kind.getD 0
  kind_lt : e.kind < KIND_COUNT
  fullElf : ¬(e.kind = KIND_FULL_ELF ∧ e.pdiSize ≠ 0)

theorem Describes.mono {blobPoolOffset : ℕ} {pool pool' : Bytes} {item : Kernel × ℕ} {e : Entry}
    (h : Describes blobPoolOffset pool item e) (hle : pool <+: pool') :
    Describes blobPoolOffset pool' item e where
  name := h.name
  insts_pos := h.insts_pos
  insts := by
    obtain ⟨offset, hoffset, hsize, hholds⟩ := h.insts
    exact ⟨offset, hoffset, hsize, hholds.mono hle⟩
  no_pdi := h.no_pdi
  pdi := fun blob hblob => by
    obtain ⟨hpos, offset, hoffset, hsize, hholds⟩ := h.pdi blob hblob
    exact ⟨hpos, offset, hoffset, hsize, hholds.mono hle⟩
  kernargSize := h.kernargSize
  numCols := h.numCols
  kind := h.kind
  kind_lt := h.kind_lt
  fullElf := h.fullElf

theorem uint32_eq_ok {value : ℤ} {field name : String} {n : ℕ}
    (h : uint32 value field name = .ok n) : (n : ℤ) = value := by
  unfold uint32 at h
  split_ifs at h with hrange
  cases h
  exact Int.toNat_of_nonneg hrange.1

theorem checkBlobs_eq_ok {k : Kernel} {instsSize pdiSize kind : ℕ}
    (h : checkBlobs k instsSize pdiSize = .ok kind) :
    instsSize ≠ 0 ∧ k.pdi ≠ some [] ∧ (kind : ℤ) = k.kind.getD 0 ∧ kind < KIND_COUNT ∧
      ¬(kind = KIND_FULL_ELF ∧ pdiSize ≠ 0) := by
  unfold checkBlobs at h
  simp only at h
  split_ifs at h with hinsts hpdi hkind hfull
  cases h
  have hcast : ((k.kind.getD KIND_PDI_INSTS).toNat : ℤ) = k.kind.getD 0 :=
    Int.toNat_of_nonneg hkind.1
  refine ⟨hinsts, hpdi, hcast, ?_, fun hboth => hfull ⟨?_, hboth.2⟩⟩
  · have := hkind.2
    omega
  · show k.kind.getD 0 = _
    rw [← hcast, hboth.1]

theorem columns_eq_ok {k : Kernel} {numCols : ℕ} (h : columns k = .ok numCols) :
    k.numCols = some (numCols : ℤ) := by
  unfold columns at h
  cases hcols : k.numCols with
  | none =>
    rw [hcols] at h
    cases h
  | some cols =>
    rw [hcols] at h
    obtain ⟨n, hn, h⟩ := bind_eq_ok.1 h
    split_ifs at h
    cases h
    rw [uint32_eq_ok hn]

theorem buildEntry_describes {blobPoolOffset : ℕ} {pool pool' : Pool} {k : Kernel} {n : ℕ}
    {e : Entry} (hvalid : pool.Valid) (h : buildEntry blobPoolOffset pool k n = .ok (e, pool')) :
    pool'.Valid ∧ pool.bytes <+: pool'.bytes ∧
      Describes blobPoolOffset pool'.bytes (k, n) e := by
  obtain ⟨hinsts, hle, hsize, hholds⟩ := hvalid.place k.insts
  obtain ⟨hpdi, hle', hsize', hholds'⟩ := hinsts.place (k.pdi.getD [])
  unfold buildEntry at h
  simp only at h
  obtain ⟨kind, hkind, h⟩ := bind_eq_ok.1 h
  obtain ⟨kernargSize, hkernarg, h⟩ := bind_eq_ok.1 h
  obtain ⟨numCols, hcols, h⟩ := bind_eq_ok.1 h
  cases h
  obtain ⟨hpos, hgiven, hcast, hlt, hfull⟩ := checkBlobs_eq_ok hkind
  refine ⟨hpdi, hle.trans hle', ?_⟩
  refine ⟨rfl, Nat.pos_of_ne_zero hpos, ⟨_, rfl, hsize, (hholds ?_).mono hle'⟩, fun hnone => ?_,
    fun blob hblob => ?_, uint32_eq_ok hkernarg, columns_eq_ok hcols, hcast, hlt, hfull⟩
  · rintro hnil
    rw [hsize, hnil] at hpos
    exact hpos rfl
  · show ((pool.place k.insts).2.place (k.pdi.getD [])).1.2 = 0
    rw [hsize', hnone]
    rfl
  · have hne : blob ≠ [] := by
      rintro rfl
      exact hgiven hblob
    have hlength : ((pool.place k.insts).2.place (k.pdi.getD [])).1.2 = blob.length := by
      rw [hsize', hblob]
      rfl
    have hblobPos : 0 < blob.length := List.length_pos_of_ne_nil hne
    refine ⟨by rw [hlength]; exact hblobPos, _, if_pos (by rw [hlength]; omega), hlength, ?_⟩
    have hdefault : k.pdi.getD [] = blob := by
      rw [hblob]
      rfl
    rw [hdefault] at hholds' ⊢
    exact hholds' hne

/-- **The entries describe their kernels** over the pool of all of them. -/
theorem buildEntries_describes {blobPoolOffset : ℕ} {pool pool' : Pool}
    {items : List (Kernel × ℕ)} {entries : List Entry} (hvalid : pool.Valid)
    (h : buildEntries blobPoolOffset pool items = .ok (entries, pool')) :
    pool.bytes <+: pool'.bytes ∧
      List.Forall₂ (Describes blobPoolOffset pool'.bytes) items entries := by
  induction items generalizing pool entries with
  | nil =>
    cases h
    exact ⟨List.prefix_rfl, .nil⟩
  | cons item items ih =>
    rw [buildEntries] at h
    obtain ⟨⟨e, middle⟩, hentry, h⟩ := bind_eq_ok.1 h
    obtain ⟨⟨later, last⟩, hlater, h⟩ := bind_eq_ok.1 h
    cases h
    obtain ⟨hmiddle, hle, he⟩ := buildEntry_describes hvalid hentry
    obtain ⟨hle', hitems⟩ := ih hmiddle hlater
    exact ⟨hle.trans hle', .cons (he.mono hle') hitems⟩

theorem structPack_eq_ok {format fields : List ℕ} {bytes : Bytes}
    (h : structPack format fields = .ok bytes) : packFields format fields = some bytes := by
  unfold structPack at h
  cases hpack : packFields format fields with
  | none =>
    rw [hpack] at h
    cases h
  | some packed =>
    rw [hpack] at h
    cases h
    rfl

/-! ## Reading back -/

structure Reads (bytes : Bytes) (k : Kernel) (p : ParsedKernel) : Prop where
  name : p.name = k.name
  kernargSize : (p.kernargSize : ℤ) = k.kernargSize.getD 0
  numCols : k.numCols = some (p.numCols : ℤ)
  kind : (p.kind : ℤ) = k.kind.getD 0
  hasPdi : p.hasPdi = k.pdi.isSome
  insts : part bytes p.instsOffset p.instsSize = k.insts
  pdi : ∀ blob, k.pdi = some blob → part bytes p.pdiOffset p.pdiSize = blob

/-- The string table and the pool lie at the end of the bytes. -/
structure Layout (bytes : Bytes) (r : Regions) (names pool : Bytes) : Prop where
  split : ∃ front, bytes = front ++ (names ++ pool) ∧ r.stOff = front.length
  stSize : r.stSize = names.length
  poolOff : r.poolOff = r.stOff + names.length

section Layout

variable {bytes names pool : Bytes} {r : Regions}

theorem Layout.slice_names (h : Layout bytes r names pool) (n length : ℕ) :
    part bytes (r.stOff + n) length = part (names ++ pool) n length := by
  obtain ⟨front, hbytes, hoff⟩ := h.split
  rw [hbytes, hoff, part_append_right]

theorem Layout.slice_pool (h : Layout bytes r names pool) (offset length : ℕ) :
    part bytes (r.poolOff + offset) length = part pool offset length := by
  rw [h.poolOff, Nat.add_assoc, h.slice_names, part_append_right]

theorem Layout.length_eq (h : Layout bytes r names pool) :
    bytes.length = r.poolOff + pool.length := by
  obtain ⟨front, hbytes, hoff⟩ := h.split
  rw [hbytes, h.poolOff, hoff, List.length_append, List.length_append, Nat.add_assoc]

theorem Layout.inPool_of_holds (h : Layout bytes r names pool) {offset : ℕ} {blob : Bytes}
    (hholds : Holds pool offset blob) : inPool bytes r (r.poolOff + offset) blob.length := by
  have := hholds.1
  refine ⟨Nat.le_add_right _ _, ?_⟩
  rw [h.length_eq]
  omega

theorem Layout.parseName (h : Layout bytes r names pool) {k : Kernel} {n i : ℕ}
    (hname : NamedAt names (k, n)) (hnul : '\x00' ∉ k.name.toList) :
    parseName bytes r i n = .ok k.name := by
  obtain ⟨rest, hrest⟩ : ∃ rest, names.drop n = encode k.name ++ 0 :: rest := hname
  have hlength := congrArg List.length hrest
  rw [List.length_drop, List.length_append, List.length_cons] at hlength
  have hlt : n < names.length := by omega
  have htail : part (names ++ pool) n (names.length - n) = encode k.name ++ 0 :: rest := by
    rw [part_append_left (by omega), part, hrest, List.take_of_length_le]
    rw [← hrest, List.length_drop]
  have hread : part (names ++ pool) n (encode k.name).length = encode k.name := by
    rw [part_append_left (by omega), part, hrest, List.take_left]
  unfold Hsaco.parseName
  have hsize : r.stOff + r.stSize - (r.stOff + n) = names.length - n := by
    rw [h.stSize]
    omega
  simp only
  rw [if_neg (by rw [h.stSize]; omega), h.slice_names, hsize, htail,
    findIdx?_append_zero (zero_notMem_encode hnul)]
  simp only
  rw [h.slice_names, hread, decode_encode]

/-- **A kernel is read back** from its entry. -/
theorem Layout.parseKernel (h : Layout bytes r names pool) {item : Kernel × ℕ} {e : Entry}
    {i : ℕ} {entry rest : Bytes} (he : Describes r.poolOff pool item e)
    (hentry : packFields ENTRY e.fields = some entry)
    (hdrop : bytes.drop (r.hdrSize + i * r.kentry) = entry ++ rest)
    (hname : NamedAt names item) (hnul : '\x00' ∉ item.1.name.toList) :
    ∃ p, parseKernel bytes r i = .ok p ∧ Reads bytes item.1 p := by
  obtain ⟨offset, hoffset, hsize, hholds⟩ := he.insts
  have hinsts : ¬(e.instsSize = 0 ∨ ¬inPool bytes r e.instsOffset e.instsSize) := by
    rw [not_or, not_not, hoffset, hsize]
    exact ⟨by have := he.insts_pos; omega, h.inPool_of_holds hholds⟩
  have hpdi : ¬(e.pdiSize ≠ 0 ∧ ¬inPool bytes r e.pdiOffset e.pdiSize) := by
    rintro ⟨hne, hnot⟩
    cases hgiven : item.1.pdi with
    | none => exact hne (he.no_pdi hgiven)
    | some blob =>
      obtain ⟨-, offset', hoffset', hsize', hholds'⟩ := he.pdi blob hgiven
      rw [hoffset', hsize'] at hnot
      exact hnot (h.inPool_of_holds hholds')
  have hkind : ¬e.kind ≥ KIND_COUNT := Nat.not_le.2 he.kind_lt
  have hunpack : unpackFields ENTRY (bytes.drop (r.hdrSize + i * r.kentry)) = some e.fields := by
    rw [hdrop, unpackFields_packFields hentry]
  refine ⟨⟨item.1.name, e.instsOffset, e.instsSize, decide (e.pdiSize ≠ 0), e.pdiOffset,
    e.pdiSize, e.kernargSize, e.numCols, e.kind, kindName e.kind⟩, ?_, ?_⟩
  · unfold Hsaco.parseKernel
    rw [hunpack, Entry.fields]
    simp only
    rw [if_neg hkind, if_neg he.fullElf, if_neg hinsts, if_neg hpdi, he.name,
      h.parseName hname hnul]
    rfl
  · refine ⟨rfl, he.kernargSize, he.numCols, he.kind, ?_, ?_, fun blob hblob => ?_⟩
    · cases hgiven : item.1.pdi with
      | none => simp [he.no_pdi hgiven]
      | some blob =>
        have := (he.pdi blob hgiven).1
        simp only [ne_eq, decide_not, Option.isSome_some, Bool.not_eq_true',
          decide_eq_false_iff_not]
        omega
    · rw [hoffset, h.slice_pool, hsize, hholds.2]
    · obtain ⟨-, offset', hoffset', hsize', hholds'⟩ := he.pdi blob hblob
      rw [hoffset', h.slice_pool, hsize', hholds'.2]

/-- The table from entry `i` on. -/
theorem Layout.parseKernels (h : Layout bytes r names pool) (hkentry : r.kentry = ENTRY_SIZE)
    {items : List (Kernel × ℕ)} {entries : List Entry} {table : List Bytes} {rest : Bytes} {i : ℕ}
    (hitems : List.Forall₂ (Describes r.poolOff pool) items entries)
    (htable : List.Forall₂ (fun e entry => packFields ENTRY e.fields = some entry) entries table)
    (hdrop : bytes.drop (r.hdrSize + i * r.kentry) = table.flatten ++ rest)
    (hnames : ∀ item ∈ items, NamedAt names item ∧ '\x00' ∉ item.1.name.toList) :
    ∃ ps, (List.range' i items.length).mapM (Hsaco.parseKernel bytes r) = .ok ps ∧
      List.Forall₂ (Reads bytes) (items.map Prod.fst) ps := by
  induction hitems generalizing table i with
  | nil => exact ⟨[], rfl, .nil⟩
  | @cons item e items entries he _ ih =>
    cases htable with
    | @cons _ entry _ table hentry htable =>
      rw [List.flatten_cons, List.append_assoc] at hdrop
      obtain ⟨hname, hnul⟩ := hnames item List.mem_cons_self
      obtain ⟨p, hp, hreads⟩ := h.parseKernel he hentry hdrop hname hnul
      have hnext : bytes.drop (r.hdrSize + (i + 1) * r.kentry) = table.flatten ++ rest := by
        rw [Nat.add_mul, one_mul, ← Nat.add_assoc, ← List.drop_drop, hdrop, hkentry]
        exact List.drop_left' (length_packFields hentry)
      obtain ⟨ps, hps, hall⟩ := ih htable hnext fun item hmem =>
        hnames item (List.mem_cons_of_mem _ hmem)
      refine ⟨p :: ps, ?_, .cons hreads hall⟩
      rw [List.length_cons, List.range'_succ, List.mapM_cons, hp]
      show ((List.range' (i + 1) items.length).mapM (Hsaco.parseKernel bytes r)).bind
        (fun ps => .ok (p :: ps)) = _
      rw [hps]
      rfl

end Layout

theorem length_table {entries : List Entry} {table : List Bytes}
    (h : List.Forall₂ (fun e entry => packFields ENTRY e.fields = some entry) entries table) :
    table.flatten.length = ENTRY_SIZE * entries.length := by
  induction h with
  | nil => rfl
  | cons hentry _ ih =>
    rw [List.flatten_cons, List.length_append, length_packFields hentry, ih, List.length_cons,
      Nat.mul_succ, Nat.add_comm]
    rfl

theorem checkRegions_eq_ok {bytes : Bytes} {r : Regions} (hhdr : r.hdrSize = HDR_SIZE)
    (hkentry : r.kentry = ENTRY_SIZE) (hst : r.stOff = r.hdrSize + r.kcount * r.kentry)
    (hpool : r.poolOff = r.stOff + r.stSize) (hle : r.poolOff ≤ bytes.length) :
    checkRegions bytes r = .ok () := by
  unfold checkRegions
  simp only
  rw [if_neg (by omega), if_neg (by omega), if_neg (by omega), if_neg (by omega),
    if_neg (by omega), if_neg (by omega), if_neg (by omega)]

/-- **What is packed is read back**: the same kernels in the same order, with their fields and
the bytes of their blobs. -/
theorem parseSection_buildSection {arch : String} {kernels : List Kernel} {bytes : Bytes}
    (h : buildSection arch kernels = .ok bytes)
    (hnul : ∀ k ∈ kernels, '\x00' ∉ k.name.toList) :
    ∃ parsed, parseSection bytes = .ok parsed ∧ parsed.kernelCount = kernels.length ∧
      List.Forall₂ (Reads bytes) kernels parsed.kernels := by
  unfold buildSection at h
  simp only at h
  split_ifs at h
  obtain ⟨⟨entries, pool⟩, hentries, h⟩ := bind_eq_ok.1 h
  obtain ⟨head, hhead, h⟩ := bind_eq_ok.1 h
  obtain ⟨table, htable, h⟩ := bind_eq_ok.1 h
  cases h
  rw [stringTable_eq] at hentries hhead ⊢
  have hitems := (buildEntries_describes Pool.valid_empty hentries).2
  have hpack : List.Forall₂ (fun e entry => packFields ENTRY e.fields = some entry) entries table :=
    (mapM_ok htable).imp fun _ _ => structPack_eq_ok
  have hhead := structPack_eq_ok hhead
  have hcount : (kernels.zip (nameOffsets 0 kernels)).length = kernels.length := by
    rw [List.length_zip, length_nameOffsets, min_self]
  have hfst : (kernels.zip (nameOffsets 0 kernels)).map Prod.fst = kernels :=
    List.map_fst_zip (by rw [length_nameOffsets])
  have htableLength : table.flatten.length = ENTRY_SIZE * kernels.length := by
    rw [length_table hpack, ← hitems.length_eq, hcount]
  have hnames : ∀ item ∈ kernels.zip (nameOffsets 0 kernels),
      NamedAt (kernels.flatMap nameBytes) item ∧ '\x00' ∉ item.1.name.toList := fun item hmem =>
    ⟨namedAt_of_mem [] hmem, hnul item.1 (List.of_mem_zip hmem).1⟩
  set names := kernels.flatMap nameBytes
  set bytes := head ++ (table.flatten ++ (names ++ pool.bytes)) with hbytes
  let r : Regions := {
    hdrSize := HDR_SIZE
    kcount := kernels.length
    kentry := ENTRY_SIZE
    stOff := HDR_SIZE + ENTRY_SIZE * kernels.length
    stSize := names.length
    poolOff := HDR_SIZE + ENTRY_SIZE * kernels.length + names.length }
  have hheadLength : head.length = HDR_SIZE := length_packFields hhead
  have hlayout : Layout bytes r names pool.bytes := {
    split := ⟨head ++ table.flatten, by rw [List.append_assoc], by
      rw [List.length_append, hheadLength, htableLength]⟩
    stSize := rfl
    poolOff := rfl }
  have hsize := hlayout.length_eq
  have hdrop : bytes.drop (r.hdrSize + 0 * r.kentry) = table.flatten ++ (names ++ pool.bytes) := by
    rw [Nat.zero_mul, Nat.add_zero]
    exact List.drop_left' hheadLength
  obtain ⟨ps, hps, hreads⟩ := hlayout.parseKernels rfl hitems hpack hdrop hnames
  rw [hcount] at hps
  rw [hfst] at hreads
  have hregions : checkRegions bytes r = .ok () :=
    checkRegions_eq_ok rfl rfl (by rw [Nat.mul_comm]) rfl (by omega)
  refine ⟨⟨(VERSION_MAJOR, VERSION_MINOR), kernels.length, ps⟩, ?_, rfl, hreads⟩
  have hlarge : ¬bytes.length < HDR_SIZE := by
    rw [hbytes, List.length_append, hheadLength]
    omega
  unfold parseSection
  rw [if_neg hlarge, unpackFields_packFields hhead]
  show ((checkRegions bytes r).bind fun _ => ((List.range kernels.length).mapM
    (Hsaco.parseKernel bytes r)).bind fun ps => .ok
      (Parsed.mk (VERSION_MAJOR, VERSION_MINOR) kernels.length ps)) = _
  rw [hregions, List.range_eq_range', hps]
  rfl

/-- Two kernels, the second with the first one's instructions as its PDI. -/
def twoKernels : List Kernel :=
  [⟨"a", [1, 2], none, none, some 1, none⟩, ⟨"b", [3], some [1, 2], some 8, some 4, none⟩]

theorem twoKernels_read : ∃ bytes parsed, buildSection "aie2" twoKernels = .ok bytes ∧
    parseSection bytes = .ok parsed ∧ parsed.kernelCount = 2 ∧
    List.Forall₂ (Reads bytes) twoKernels parsed.kernels := by
  have hok : (buildSection "aie2" twoKernels).isOk := by decide +kernel
  cases hbytes : buildSection "aie2" twoKernels with
  | error e =>
    rw [hbytes] at hok
    cases hok
  | ok bytes =>
    obtain ⟨parsed, hparsed⟩ := parseSection_buildSection hbytes (by decide)
    exact ⟨bytes, parsed, rfl, hparsed⟩

end MlirAie.Hsaco
