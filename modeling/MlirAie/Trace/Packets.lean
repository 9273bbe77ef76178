import MlirAie.Lib.Lists
import MlirAie.Lib.Text

/-!
# De-interleaving trace packets

The words of a trace come in packets of a header and up to seven payload words. The loop reads a
header at every eighth word and appends each other word to the stream of the tile it last read.

* `PktHdr`, `parsePktHdrInStream`: a header, and whether it is valid;
* **`tracePktsDeInterleave`**: the loop;
* **`attributes_iff`**: each payload goes to its own tile exactly if no damaged header has one.
-/

namespace MlirAie.Trace

open Lib

/-! ## Headers -/

structure TileFields where
  col : ℕ
  row : ℕ
  pktType : ℕ
  pktId : ℕ
deriving DecidableEq

/-- `extract_tile`. -/
def extractTile (data : ℕ) : TileFields :=
  ⟨data >>> 21 &&& 0x7F, data >>> 16 &&& 0x1F, data >>> 12 &&& 0x3, data &&& 0x1F⟩

def checkOddWordParity (word : ℕ) : Bool :=
  (List.range 32).foldl (fun val i => val ^^^ (word >>> i &&& 1)) 0 = 1

/-- The fields are read only where the reserved bits are zero. -/
structure PktHdr where
  valid : Bool
  fields : Option TileFields
deriving DecidableEq

def parsePktHdrInStream (word : ℕ) : PktHdr :=
  if word >>> 5 &&& 0x7F ≠ 0 ∨ word >>> 19 &&& 0x1 ≠ 0 ∨ word >>> 28 &&& 0x7 ≠ 0 then
    ⟨false, none⟩
  else ⟨checkOddWordParity word, some (extractTile word)⟩

def numTraceTypes : ℕ := 4

/-- How a tile is named in the dictionaries. -/
def locOf (row col : ℕ) : String := toString row ++ ("," ++ toString col)

/-! ## The loop -/

inductive DeInterleaveError
  | keyError (loc : String)
  | invalidType
deriving DecidableEq

/-- The variables of the loop; `sorted` has a dictionary for each type. -/
structure DeInterleaveState where
  sorted : ℕ → String → Option (List ℕ)
  currPktType : ℕ
  currLoc : String
  currVld : Bool

namespace DeInterleaveState

def initial : DeInterleaveState := ⟨fun _ _ => none, 0, "", false⟩

/-- `sorted[type][loc] = stream`. -/
def store (s : DeInterleaveState) (type : ℕ) (loc : String) (stream : List ℕ) :
    DeInterleaveState :=
  { s with sorted := fun t l => if t = type ∧ l = loc then some stream else s.sorted t l }

/-- A valid header changes the tile that the words are for. -/
def readHeader (s : DeInterleaveState) (hdr : PktHdr) :
    Except DeInterleaveError DeInterleaveState :=
  if hdr.valid then
    match hdr.fields with
    | none => .error (.keyError "row")
    | some tile =>
      if tile.pktType < numTraceTypes then
        let loc := locOf tile.row tile.col
        .ok { s.store tile.pktType loc ((s.sorted tile.pktType loc).getD []) with
          currPktType := tile.pktType, currLoc := loc }
      else .error .invalidType
  else .ok s

/-- One word; the flag is set by any header. -/
def readWord (s : DeInterleaveState) (word i : ℕ) : Except DeInterleaveError DeInterleaveState :=
  if i % 8 = 0 then
    (s.readHeader (parsePktHdrInStream word)).map fun s => { s with currVld := true }
  else if s.currVld then
    match s.sorted s.currPktType s.currLoc with
    | none => .error (.keyError s.currLoc)
    | some stream => .ok (s.store s.currPktType s.currLoc (stream ++ [word]))
  else .ok s

/-- The words from the `i`-th on. -/
def readWords (s : DeInterleaveState) : List ℕ → ℕ → Except DeInterleaveError DeInterleaveState
  | [], _ => .ok s
  | word :: words, i => (s.readWord word i).bind fun t => t.readWords words (i + 1)

end DeInterleaveState

open DeInterleaveState

/-- **`trace_pkts_de_interleave`**; a blank line is `none` and ends the words. -/
def tracePktsDeInterleave (wordStream : List (Option ℕ)) :
    Except DeInterleaveError (ℕ → String → Option (List ℕ)) :=
  (initial.readWords (wordStream.takeWhile Option.isSome).reduceOption 0).map sorted

/-! ## Packets -/

structure Packet where
  header : ℕ
  payload : List ℕ
deriving DecidableEq

def packets (words : List ℕ) : List Packet :=
  (List.range ((words.length + 7) / 8)).map fun k =>
    ⟨(words.drop (8 * k)).headI, ((words.drop (8 * k)).take 8).tail⟩

def Packet.tile (p : Packet) : Option TileFields :=
  if (parsePktHdrInStream p.header).valid then some (extractTile p.header) else none

def Packet.Names (p : Packet) (type row col : ℕ) : Prop :=
  ∃ tile, p.tile = some tile ∧ tile.pktType = type ∧ tile.row = row ∧ tile.col = col

instance (p : Packet) (type row col : ℕ) : Decidable (p.Names type row col) :=
  decidable_of_iff (p.tile.any fun tile =>
    tile.pktType = type ∧ tile.row = row ∧ tile.col = col) <| by
    rw [Option.any_eq_true]
    simp [Packet.Names]

def payloadsOf (ps : List Packet) (type row col : ℕ) : List ℕ :=
  (ps.filter fun p => p.Names type row col).flatMap Packet.payload

/-- **No exception, and each tile has the payloads of its own packets.** -/
def Attributes (words : List ℕ) : Prop :=
  ∃ sorted, tracePktsDeInterleave (words.map some) = .ok sorted ∧
    ∀ type row col,
      (sorted type (locOf row col)).getD [] = payloadsOf (packets words) type row col

theorem packets_nil : packets [] = [] := rfl

theorem packets_cons (header : ℕ) (rest : List ℕ) :
    packets (header :: rest) = ⟨header, rest.take 7⟩ :: packets (rest.drop 7) := by
  have hcount : ((header :: rest).length + 7) / 8 = ((rest.drop 7).length + 7) / 8 + 1 := by
    rw [List.length_cons, List.length_drop]
    omega
  unfold packets
  rw [hcount, List.range_succ_eq_map, List.map_cons, List.map_map]
  congr 1
  refine List.map_congr_left fun k _ => ?_
  have hdrop : (header :: rest).drop (8 * (k + 1)) = (rest.drop 7).drop (8 * k) := by
    rw [show 8 * (k + 1) = 8 * k + 7 + 1 by ring, List.drop_succ_cons, List.drop_drop,
      Nat.add_comm]
  rw [Function.comp_apply, hdrop]

/-- What a packet has for a tile. -/
def Packet.given (p : Packet) (type row col : ℕ) : List ℕ :=
  if p.Names type row col then p.payload else []

theorem payloadsOf_cons (p : Packet) (ps : List Packet) (type row col : ℕ) :
    payloadsOf (p :: ps) type row col = p.given type row col ++ payloadsOf ps type row col := by
  unfold payloadsOf Packet.given
  split_ifs with h
  · rw [List.filter_cons]
    simp only [h, decide_true, if_true, List.flatMap_cons]
  · rw [List.filter_cons]
    simp only [h, decide_false, Bool.false_eq_true, if_false, List.nil_append]

theorem locOf_inj {row col row' col' : ℕ} :
    locOf row col = locOf row' col' ↔ row = row' ∧ col = col' := by
  constructor
  · intro h
    obtain ⟨hrow, hcol⟩ := text_split "," rfl (not_mem_toString_nat rfl row)
      (not_mem_toString_nat rfl row') h
    exact ⟨Nat.repr_injective hrow, Nat.repr_injective hcol⟩
  · rintro ⟨rfl, rfl⟩
    rfl

theorem extractTile_pktType_lt (word : ℕ) : (extractTile word).pktType < numTraceTypes :=
  Nat.lt_succ_of_le Nat.and_le_right

/-! ## One packet -/

namespace DeInterleaveState

variable {s t : DeInterleaveState}

/-- The words of a tile so far. -/
def stream (s : DeInterleaveState) (type : ℕ) (loc : String) : List ℕ :=
  (s.sorted type loc).getD []

theorem stream_store (type : ℕ) (loc : String) (words : List ℕ) (t : ℕ) (l : String) :
    (s.store type loc words).stream t l =
      if t = type ∧ l = loc then words else s.stream t l := by
  unfold stream store
  simp only
  split_ifs <;> rfl

theorem readWords_append (words words' : List ℕ) (i : ℕ) :
    s.readWords (words ++ words') i =
      (s.readWords words i).bind fun t => t.readWords words' (i + words.length) := by
  induction words generalizing s i with
  | nil => rfl
  | cons word words ih =>
    rw [List.cons_append, readWords, readWords]
    cases s.readWord word i with
    | error e => rfl
    | ok t =>
      show t.readWords (words ++ words') (i + 1) = (t.readWords words (i + 1)).bind _
      rw [ih, List.length_cons, Nat.add_right_comm, Nat.add_assoc]

/-- After a header: at its tile if it is valid, and where it was otherwise. -/
def atHeader (s : DeInterleaveState) (p : Packet) : DeInterleaveState :=
  match p.tile with
  | some tile =>
    let loc := locOf tile.row tile.col
    { s.store tile.pktType loc (s.stream tile.pktType loc) with
      currPktType := tile.pktType, currLoc := loc, currVld := true }
  | none => { s with currVld := true }

theorem readWord_header {i : ℕ} (hi : i % 8 = 0) (p : Packet) :
    s.readWord p.header i = .ok (s.atHeader p) := by
  unfold readWord readHeader atHeader Packet.tile
  rw [if_pos hi]
  by_cases hvalid : (parsePktHdrInStream p.header).valid
  · have hfields : (parsePktHdrInStream p.header).fields = some (extractTile p.header) := by
      unfold parsePktHdrInStream at hvalid ⊢
      split_ifs at hvalid ⊢
      rfl
    rw [if_pos hvalid, if_pos hvalid, hfields]
    simp only
    rw [if_pos (extractTile_pktType_lt p.header)]
    rfl
  · rw [if_neg hvalid, if_neg hvalid]
    rfl

theorem store_self {type : ℕ} {loc : String} {words : List ℕ}
    (h : s.sorted type loc = some words) : s.store type loc words = s := by
  unfold store
  obtain ⟨sorted, type', loc', vld⟩ := s
  simp only [DeInterleaveState.mk.injEq, and_true]
  funext t l
  split_ifs with hkey
  · rw [hkey.1, hkey.2]
    exact h.symm
  · rfl

theorem store_store (type : ℕ) (loc : String) (words words' : List ℕ) :
    (s.store type loc words).store type loc words' = s.store type loc words' := by
  unfold store
  simp only [DeInterleaveState.mk.injEq, and_true]
  funext t l
  split_ifs <;> rfl

theorem readWords_payload {payload : List ℕ} : ∀ {i : ℕ} {s : DeInterleaveState} {words : List ℕ},
    s.currVld = true → (∀ k < payload.length, (i + k) % 8 ≠ 0) →
    s.sorted s.currPktType s.currLoc = some words →
    s.readWords payload i = .ok (s.store s.currPktType s.currLoc (words ++ payload)) := by
  induction payload with
  | nil =>
    intro i s words _ _ hsorted
    rw [List.append_nil, store_self hsorted]
    rfl
  | cons word rest ih =>
    intro i s words hvld hi hsorted
    have hhead : i % 8 ≠ 0 := hi 0 (Nat.succ_pos _)
    have hrest : ∀ k < rest.length, (i + 1 + k) % 8 ≠ 0 := fun k hk => by
      have := hi (k + 1) (Nat.succ_lt_succ hk)
      rwa [show i + 1 + k = i + (k + 1) by omega]
    rw [readWords, readWord, if_neg hhead, if_pos hvld, hsorted]
    refine (@ih (i + 1) (s.store s.currPktType s.currLoc (words ++ [word])) (words ++ [word]) hvld
      hrest (if_pos ⟨rfl, rfl⟩)).trans ?_
    show Except.ok ((s.store s.currPktType s.currLoc (words ++ [word])).store s.currPktType
      s.currLoc (words ++ [word] ++ rest)) = _
    rw [store_store, List.append_assoc]
    rfl

theorem readWords_keyError {payload : List ℕ} {i : ℕ} (hvld : s.currVld = true) (hi : i % 8 ≠ 0)
    (hpayload : payload ≠ []) (hsorted : s.sorted s.currPktType s.currLoc = none) :
    s.readWords payload i = .error (.keyError s.currLoc) := by
  cases payload with
  | nil => exact absurd rfl hpayload
  | cons word rest =>
    rw [readWords, readWord, if_neg hi, if_pos hvld, hsorted]
    rfl

def readPacket (s : DeInterleaveState) (p : Packet) : Except DeInterleaveError DeInterleaveState :=
  let t := s.atHeader p
  if p.payload = [] then .ok t
  else if t.sorted t.currPktType t.currLoc = none then .error (.keyError t.currLoc)
  else .ok (t.store t.currPktType t.currLoc (t.stream t.currPktType t.currLoc ++ p.payload))

theorem atHeader_currVld (p : Packet) : (s.atHeader p).currVld = true := by
  unfold atHeader
  cases p.tile <;> rfl

theorem readPacket_eq {p : Packet} {i : ℕ} (hi : i % 8 = 0) (hlen : p.payload.length ≤ 7) :
    s.readPacket p =
      (s.readWord p.header i).bind fun t => t.readWords p.payload (i + 1) := by
  rw [readWord_header hi]
  show _ = (s.atHeader p).readWords p.payload (i + 1)
  unfold readPacket
  simp only
  split_ifs with hpayload hsorted
  · rw [hpayload]
    rfl
  · exact (readWords_keyError (atHeader_currVld p) (by omega) hpayload hsorted).symm
  · obtain ⟨words, hwords⟩ := Option.ne_none_iff_exists'.1 hsorted
    rw [readWords_payload (atHeader_currVld p) (fun k hk => by omega) hwords, stream, hwords,
      Option.getD_some]

/-- **The loop reads one packet after the other.** -/
theorem readWords_eq {words : List ℕ} : ∀ {i : ℕ} {s : DeInterleaveState}, i % 8 = 0 →
    s.readWords words i = (packets words).foldlM readPacket s := by
  induction hlen : words.length using Nat.strong_induction_on generalizing words with
  | _ n ih =>
    intro i s hi
    cases words with
    | nil => rfl
    | cons header rest =>
      rw [packets_cons, List.foldlM_cons]
      have hsplit : s.readWords (header :: rest) i =
          ((s.readWord header i).bind fun t => t.readWords (rest.take 7) (i + 1)).bind fun u =>
            u.readWords (rest.drop 7) (i + 1 + (rest.take 7).length) := by
        rw [readWords]
        cases s.readWord header i with
        | error e => rfl
        | ok t =>
          show t.readWords rest (i + 1) = (t.readWords (rest.take 7) (i + 1)).bind _
          rw [← readWords_append, List.take_append_drop]
      rw [hsplit, ← @readPacket_eq s ⟨header, rest.take 7⟩ i hi (List.length_take_le 7 rest)]
      show _ = (s.readPacket ⟨header, rest.take 7⟩).bind _
      congr 1
      funext u
      by_cases hfull : 7 ≤ rest.length
      · refine ih (rest.drop 7).length ?_ rfl ?_
        · rw [← hlen, List.length_drop, List.length_cons]
          omega
        · rw [List.length_take]
          omega
      · rw [List.drop_eq_nil_of_le (by omega)]
        rfl

/-! ## What a packet adds -/

theorem stream_atHeader (p : Packet) (t : ℕ) (l : String) :
    (s.atHeader p).stream t l = s.stream t l := by
  unfold atHeader
  cases p.tile with
  | none => rfl
  | some tile =>
    refine (stream_store _ _ _ t l).trans ?_
    split_ifs with h
    · rw [h.1, h.2]
    · rfl

/-- **The payload of a packet** goes to the tile that was read last. -/
theorem stream_readPacket {p : Packet} (h : s.readPacket p = .ok t) (type : ℕ) (loc : String) :
    t.stream type loc = s.stream type loc ++
      if type = (s.atHeader p).currPktType ∧ loc = (s.atHeader p).currLoc then p.payload
      else [] := by
  unfold readPacket at h
  simp only at h
  split_ifs at h with hpayload hsorted
  · cases h
    rw [stream_atHeader, hpayload, ite_self, List.append_nil]
  · cases h
    rw [stream_store, stream_atHeader, stream_atHeader]
    split_ifs with hcurr
    · rw [hcurr.1, hcurr.2]
    · rw [List.append_nil]

theorem currTile_atHeader {p : Packet} {tile : TileFields} (h : p.tile = some tile) :
    (s.atHeader p).currPktType = tile.pktType ∧
      (s.atHeader p).currLoc = locOf tile.row tile.col ∧
      (s.atHeader p).sorted tile.pktType (locOf tile.row tile.col) ≠ none := by
  unfold atHeader
  rw [h]
  refine ⟨rfl, rfl, ?_⟩
  show (if _ then _ else _) ≠ none
  rw [if_pos ⟨rfl, rfl⟩]
  simp

theorem stream_readPacket_of_valid {p : Packet} (hvalid : p.payload ≠ [] → p.tile.isSome)
    (h : s.readPacket p = .ok t) (type row col : ℕ) :
    t.stream type (locOf row col) = s.stream type (locOf row col) ++ p.given type row col := by
  rw [stream_readPacket h]
  congr 1
  by_cases hpayload : p.payload = []
  · rw [hpayload, ite_self, Packet.given, hpayload, ite_self]
  · obtain ⟨tile, htile⟩ := Option.isSome_iff_exists.1 (hvalid hpayload)
    obtain ⟨htype, hloc, -⟩ := @currTile_atHeader s p tile htile
    rw [htype, hloc, Packet.given]
    refine if_congr ?_ rfl rfl
    simp only [Packet.Names, htile, Option.some.injEq, exists_eq_left', locOf_inj]
    constructor
    · rintro ⟨rfl, rfl, rfl⟩
      exact ⟨rfl, rfl, rfl⟩
    · rintro ⟨rfl, rfl, rfl⟩
      exact ⟨rfl, rfl, rfl⟩

theorem readPacket_eq_ok {p : Packet} (hvalid : p.payload ≠ [] → p.tile.isSome) :
    ∃ t, s.readPacket p = .ok t := by
  unfold readPacket
  simp only
  split_ifs with hpayload hsorted
  · exact ⟨_, rfl⟩
  · obtain ⟨tile, htile⟩ := Option.isSome_iff_exists.1 (hvalid hpayload)
    obtain ⟨htype, hloc, hsome⟩ := @currTile_atHeader s p tile htile
    rw [htype, hloc] at hsorted
    exact absurd hsorted hsome
  · exact ⟨_, rfl⟩

theorem length_le_of_readPacket {p : Packet} (h : s.readPacket p = .ok t) (type row col : ℕ) :
    (s.stream type (locOf row col)).length + (p.given type row col).length ≤
      (t.stream type (locOf row col)).length := by
  cases htile : p.tile with
  | some tile =>
    rw [stream_readPacket_of_valid (fun _ => by simp [htile]) h, List.length_append]
  | none =>
    have hgiven : p.given type row col = [] := if_neg (by simp [Packet.Names, htile])
    rw [stream_readPacket h, hgiven, List.length_append]
    exact Nat.add_le_add_left (Nat.zero_le _) _

/-- The dictionaries have tiles as their keys. -/
def Printed (s : DeInterleaveState) : Prop :=
  ∀ type loc, s.sorted type loc ≠ none → ∃ row col, loc = locOf row col

theorem Printed.store (h : s.Printed) (type row col : ℕ) (words : List ℕ) :
    (s.store type (locOf row col) words).Printed := by
  intro t l hsome
  unfold DeInterleaveState.store at hsome
  simp only at hsome
  split_ifs at hsome with hkey
  · exact ⟨row, col, hkey.2⟩
  · exact h t l hsome

theorem Printed.atHeader (h : s.Printed) (p : Packet) : (s.atHeader p).Printed := by
  unfold DeInterleaveState.atHeader
  cases p.tile with
  | none => exact h
  | some tile => exact h.store tile.pktType tile.row tile.col _

theorem Printed.readPacket {p : Packet} (h : s.Printed) (hp : s.readPacket p = .ok t) :
    t.Printed := by
  unfold DeInterleaveState.readPacket at hp
  simp only at hp
  split_ifs at hp with hpayload hsorted
  · cases hp
    exact h.atHeader p
  · cases hp
    obtain ⟨row, col, hloc⟩ := h.atHeader p _ _ hsorted
    rw [hloc]
    exact (h.atHeader p).store _ row col _

/-- **A damaged header's payload** is appended to the words of some tile. -/
theorem exists_lt_of_readPacket {p : Packet} (hs : s.Printed) (htile : p.tile = none)
    (hpayload : p.payload ≠ []) (h : s.readPacket p = .ok t) :
    ∃ type row col, (s.stream type (locOf row col)).length + (p.given type row col).length <
      (t.stream type (locOf row col)).length := by
  have hsorted : (s.atHeader p).sorted (s.atHeader p).currPktType (s.atHeader p).currLoc ≠
      none := by
    intro hnone
    unfold readPacket at h
    simp only [hpayload, hnone, if_false, if_true] at h
    cases h
  obtain ⟨row, col, hloc⟩ := hs.atHeader p _ _ hsorted
  refine ⟨(s.atHeader p).currPktType, row, col, ?_⟩
  have hgiven : p.given (s.atHeader p).currPktType row col = [] :=
    if_neg (by simp [Packet.Names, htile])
  rw [stream_readPacket h, hgiven, if_pos ⟨rfl, hloc.symm⟩, List.length_append, List.length_nil]
  exact Nat.add_lt_add_left (List.length_pos_iff.2 hpayload) _

/-! ## All packets -/

theorem foldlM_exact {ps : List Packet} : ∀ {s : DeInterleaveState},
    (∀ p ∈ ps, p.payload ≠ [] → p.tile.isSome) →
      ∃ t, ps.foldlM readPacket s = .ok t ∧ ∀ type row col, t.stream type (locOf row col) =
        s.stream type (locOf row col) ++ payloadsOf ps type row col := by
  induction ps with
  | nil => exact fun _ => ⟨_, rfl, fun _ _ _ => (List.append_nil _).symm⟩
  | cons p ps ih =>
    intro s hvalid
    have hp := hvalid p List.mem_cons_self
    obtain ⟨t, ht⟩ := @readPacket_eq_ok s p hp
    obtain ⟨u, hu, hstream⟩ := @ih t fun q hq => hvalid q (List.mem_cons_of_mem _ hq)
    refine ⟨u, ?_, fun type row col => ?_⟩
    · rw [List.foldlM_cons, ht]
      exact hu
    · rw [hstream, stream_readPacket_of_valid hp ht, payloadsOf_cons, List.append_assoc]

theorem foldlM_readPacket_cons {p : Packet} {ps : List Packet} {u : DeInterleaveState}
    (h : (p :: ps).foldlM readPacket s = .ok u) :
    ∃ t, s.readPacket p = .ok t ∧ ps.foldlM readPacket t = .ok u := by
  rw [List.foldlM_cons] at h
  exact bind_eq_ok.1 h

theorem length_le_of_foldlM {ps : List Packet} : ∀ {s u : DeInterleaveState},
    ps.foldlM readPacket s = .ok u → ∀ type row col,
      (s.stream type (locOf row col)).length + (payloadsOf ps type row col).length ≤
        (u.stream type (locOf row col)).length := by
  induction ps with
  | nil =>
    intro s u h type row col
    cases h
    exact le_rfl
  | cons p ps ih =>
    intro s u h type row col
    obtain ⟨t, ht, hu⟩ := foldlM_readPacket_cons h
    have hhead := length_le_of_readPacket ht type row col
    have hrest := ih hu type row col
    rw [payloadsOf_cons, List.length_append]
    omega

theorem exists_lt_of_foldlM {ps : List Packet} : ∀ {s u : DeInterleaveState}, s.Printed →
    (∃ p ∈ ps, p.payload ≠ [] ∧ p.tile = none) → ps.foldlM readPacket s = .ok u →
      ∃ type row col,
        (s.stream type (locOf row col)).length + (payloadsOf ps type row col).length <
          (u.stream type (locOf row col)).length := by
  induction ps with
  | nil => exact fun _ ⟨p, hp, _⟩ _ => absurd hp List.not_mem_nil
  | cons p ps ih =>
    rintro s u hs ⟨q, hq, hpayload, htile⟩ h
    obtain ⟨t, ht, hu⟩ := foldlM_readPacket_cons h
    rcases List.mem_cons.1 hq with rfl | hq
    · obtain ⟨type, row, col, hlt⟩ := exists_lt_of_readPacket hs htile hpayload ht
      have hrest := length_le_of_foldlM hu type row col
      refine ⟨type, row, col, ?_⟩
      rw [payloadsOf_cons, List.length_append]
      omega
    · obtain ⟨type, row, col, hlt⟩ := ih (hs.readPacket ht) ⟨q, hq, hpayload, htile⟩ hu
      have hhead := length_le_of_readPacket ht type row col
      refine ⟨type, row, col, ?_⟩
      rw [payloadsOf_cons, List.length_append]
      omega

end DeInterleaveState

theorem tracePktsDeInterleave_eq (words : List ℕ) :
    tracePktsDeInterleave (words.map some) =
      ((packets words).foldlM readPacket initial).map sorted := by
  have hwords : ((words.map some).takeWhile Option.isSome).reduceOption = words := by
    rw [List.takeWhile_eq_self_iff.2 (by simp)]
    simp [List.reduceOption]
  rw [tracePktsDeInterleave, hwords, readWords_eq (Nat.zero_mod 8)]

theorem not_attributes {words : List ℕ}
    (h : ∃ p ∈ packets words, p.payload ≠ [] ∧ p.tile = none) : ¬Attributes words := by
  rintro ⟨sorted, hrun, hsorted⟩
  rw [tracePktsDeInterleave_eq] at hrun
  cases hfold : (packets words).foldlM readPacket initial with
  | error e =>
    rw [hfold] at hrun
    cases hrun
  | ok u =>
    rw [hfold] at hrun
    cases hrun
    obtain ⟨type, row, col, hlt⟩ :=
      exists_lt_of_foldlM (fun _ _ hsome => absurd rfl hsome) h hfold
    have heq := congrArg List.length (hsorted type row col)
    change (u.stream type (locOf row col)).length = _ at heq
    omega

/-- **De-interleaving gives each tile the payloads of its own packets** exactly if every header
that is followed by a payload is valid. -/
theorem attributes_iff (words : List ℕ) :
    Attributes words ↔ ∀ p ∈ packets words, p.payload ≠ [] → p.tile.isSome := by
  constructor
  · intro h p hp hpayload
    by_contra hnone
    exact not_attributes ⟨p, hp, hpayload, by simpa using hnone⟩ h
  · intro h
    obtain ⟨u, hu, hstream⟩ := @foldlM_exact (packets words) initial h
    refine ⟨u.sorted, ?_, fun type row col => ?_⟩
    · rw [tracePktsDeInterleave_eq, hu]
      rfl
    · exact (hstream type row col).trans (List.nil_append _)

/-- A packet of the tile in row and column zero, then one whose header has even parity. -/
def damagedHeader : List ℕ := [1, 10, 11, 12, 13, 14, 15, 16, 0, 20]

/-- **The payload of the damaged packet goes to the tile before.** -/
theorem damagedHeader_not_attributes : ¬Attributes damagedHeader :=
  not_attributes ⟨⟨0, [20]⟩, by decide, by decide, by decide⟩

end MlirAie.Trace
