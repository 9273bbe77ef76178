import MlirAie.StaticBd.Requests

/-!
# The chains of a program

A start sends its channel along its chain, from its destination to the first successor of each
block. The pass walks every chain once and stops at a block that has a channel already.

* `InChain`: the chain of a channel holds a block; `Program.channels`: the channels whose chains
  hold a descriptor, for each of them;
* **`blockChannelMap_sound`**, **`blockChannelMap_complete`**: the blocks that get a channel are the
  starts and the blocks of the chains, and a block of a chain gets the channel of such a chain;
* **`requests_channels`**: the requests are for such channels.
-/

namespace MlirAie.StaticBd

open Relation

/-- Block `j` follows block `i`. -/
def Follows (blocks : List Block) (i j : ℕ) : Prop := nextBlock blocks i = some j

/-- A start at block `s` of the channel. -/
def StartAt (blocks : List Block) (s : ℕ) (channelIndex : ℤ) (dest : ℕ) : Prop :=
  ∃ chain, (blocks[s]?).map Block.terminator = some (.DMAStart channelIndex dest chain)

/-- Block `i` is in the chain of a start of the channel. -/
def InChain (blocks : List Block) (i : ℕ) (channelIndex : ℤ) : Prop :=
  ∃ s dest, StartAt blocks s channelIndex dest ∧ ReflTransGen (Follows blocks) dest i

/-- The channels whose chains hold the descriptor, for each descriptor in order. -/
def Program.channels : Program → List (Set ℤ)
  | .dmaForm ops => ops.flatMap fun op => op.bds.map fun _ => {op.channelIndex}
  | .blockForm blocks => blocks.zipIdx.filterMap fun block =>
      block.1.bd.map fun _ => {channelIndex | InChain blocks block.2 channelIndex}

section Mark

variable {blocks : List Block}

/-! ## Every channel comes from a start -/

/-- The channel of block `i` is that of a chain that holds it, or that it starts. -/
def Marks (blocks : List Block) (map : ℕ → Option ℤ) : Prop :=
  ∀ i channelIndex, map i = some channelIndex →
    InChain blocks i channelIndex ∨ ∃ dest, StartAt blocks i channelIndex dest

theorem Marks.update {map : ℕ → Option ℤ} (h : Marks blocks map) {i : ℕ} {channelIndex : ℤ}
    (hi : InChain blocks i channelIndex ∨ ∃ dest, StartAt blocks i channelIndex dest) :
    Marks blocks (Function.update map i (some channelIndex)) := by
  intro j channelIndex' hj
  by_cases hji : j = i
  · subst hji
    rw [Function.update_self] at hj
    cases hj
    exact hi
  · rw [Function.update_of_ne hji] at hj
    exact h j channelIndex' hj

theorem Marks.markChain {channelIndex : ℤ} {fuel dest : ℕ} {map : ℕ → Option ℤ}
    (h : Marks blocks map) (hdest : InChain blocks dest channelIndex) :
    Marks blocks (markChain blocks channelIndex fuel dest map) := by
  induction fuel generalizing dest map with
  | zero => exact h
  | succ fuel ih =>
    rw [StaticBd.markChain]
    have hmap := h.update (Or.inl hdest)
    cases hnext : nextBlock blocks dest with
    | none => exact hmap
    | some next =>
      dsimp only
      split
      · exact hmap
      · obtain ⟨s, dest', hs, hchain⟩ := hdest
        exact ih hmap ⟨s, dest', hs, hchain.tail hnext⟩

theorem markStart_cases (blocks : List Block) (map : ℕ → Option ℤ) (i : ℕ) :
    (∃ channelIndex dest, StartAt blocks i channelIndex dest ∧ markStart blocks map i =
      markChain blocks channelIndex (blocks.length + 1) dest
        (Function.update map i (some channelIndex))) ∨
    (∀ channelIndex dest, ¬ StartAt blocks i channelIndex dest) ∧ markStart blocks map i = map := by
  unfold markStart StartAt
  cases (blocks[i]?).map Block.terminator with
  | none => exact Or.inr ⟨fun _ _ h => by simp at h, rfl⟩
  | some terminator =>
    cases terminator with
    | DMAStart channelIndex dest chain => exact Or.inl ⟨channelIndex, dest, ⟨chain, rfl⟩, rfl⟩
    | NextBD dest => exact Or.inr ⟨fun _ _ h => by simp at h, rfl⟩
    | End => exact Or.inr ⟨fun _ _ h => by simp at h, rfl⟩

theorem Marks.markStart {map : ℕ → Option ℤ} (h : Marks blocks map) (i : ℕ) :
    Marks blocks (markStart blocks map i) := by
  rcases markStart_cases blocks map i with ⟨channelIndex, dest, hstart, heq⟩ | ⟨-, heq⟩
  · rw [heq]
    exact (h.update (Or.inr ⟨dest, hstart⟩)).markChain ⟨i, dest, hstart, .refl⟩
  · rw [heq]
    exact h

/-- **Soundness of the marks.** -/
theorem blockChannelMap_sound (blocks : List Block) : Marks blocks (blockChannelMap blocks) := by
  unfold blockChannelMap
  generalize List.range blocks.length = starts
  have hempty : Marks blocks fun _ => none := fun _ _ h => nomatch h
  generalize (fun _ => none : ℕ → Option ℤ) = map at hempty
  induction starts generalizing map with
  | nil => exact hempty
  | cons s starts ih => exact ih _ (hempty.markStart s)

/-! ## Every chain is marked to its end -/

/-- What follows a marked block is marked, save perhaps `dest`. -/
def ClosedBut (blocks : List Block) (dest : ℕ) (map : ℕ → Option ℤ) : Prop :=
  ∀ i j, (map i).isSome → Follows blocks i j → (map j).isSome ∨ j = dest

def Closed (blocks : List Block) (map : ℕ → Option ℤ) : Prop :=
  ∀ i j, (map i).isSome → Follows blocks i j → (map j).isSome

/-- The blocks without a channel. -/
def unmarked (blocks : List Block) (map : ℕ → Option ℤ) : Finset ℕ :=
  (Finset.range blocks.length).filter fun i => map i = none

theorem isSome_update {map : ℕ → Option ℤ} {i j : ℕ} {c : ℤ} (h : (map j).isSome) :
    (Function.update map i (some c) j).isSome := by
  by_cases hji : j = i
  · subst hji
    rw [Function.update_self]
    rfl
  · rwa [Function.update_of_ne hji]

theorem isSome_markChain {channelIndex : ℤ} {fuel dest j : ℕ} {map : ℕ → Option ℤ}
    (h : (map j).isSome) : (markChain blocks channelIndex fuel dest map j).isSome := by
  induction fuel generalizing dest map with
  | zero => exact h
  | succ fuel ih =>
    rw [markChain]
    have hmap := isSome_update (i := dest) (c := channelIndex) h
    cases nextBlock blocks dest with
    | none => exact hmap
    | some next =>
      dsimp only
      split
      · exact hmap
      · exact ih hmap

theorem unmarked_update (map : ℕ → Option ℤ) (i : ℕ) (c : ℤ) :
    unmarked blocks (Function.update map i (some c)) = (unmarked blocks map).erase i := by
  ext j
  simp only [unmarked, Finset.mem_filter, Finset.mem_range, Finset.mem_erase]
  by_cases hji : j = i
  · subst hji
    simp
  · simp [hji]

theorem follows_lt {i j : ℕ} (h : Follows blocks i j) : i < blocks.length := by
  obtain ⟨block, hblock, -⟩ := Option.bind_eq_some_iff.1 h
  exact (List.getElem?_eq_some_iff.1 hblock).1

theorem markChain_closed (channelIndex : ℤ) {fuel dest : ℕ} {map : ℕ → Option ℤ}
    (h : ClosedBut blocks dest map) (hpos : 0 < fuel)
    (hfuel : dest < blocks.length → ((unmarked blocks map).erase dest).card + 2 ≤ fuel) :
    (markChain blocks channelIndex fuel dest map dest).isSome ∧
      Closed blocks (markChain blocks channelIndex fuel dest map) := by
  induction fuel generalizing dest map with
  | zero => exact absurd hpos (lt_irrefl 0)
  | succ fuel ih =>
    rw [markChain]
    have hself : (Function.update map dest (some channelIndex) dest).isSome := by
      rw [Function.update_self]
      rfl
    have hold : ∀ i j, (Function.update map dest (some channelIndex) i).isSome →
        Follows blocks i j → i ≠ dest →
        (Function.update map dest (some channelIndex) j).isSome := by
      intro i j hi hij hne
      rw [Function.update_of_ne hne] at hi
      rcases h i j hi hij with hj | rfl
      · exact isSome_update hj
      · exact hself
    cases hnext : nextBlock blocks dest with
    | none =>
      refine ⟨hself, fun i j hi hij => hold i j hi hij ?_⟩
      rintro rfl
      rw [Follows, hnext] at hij
      cases hij
    | some next =>
      dsimp only
      split
      · rename_i hmarked
        refine ⟨hself, fun i j hi hij => ?_⟩
        by_cases hne : i = dest
        · subst hne
          rw [Follows, hnext] at hij
          cases hij
          exact hmarked
        · exact hold i j hi hij hne
      · rename_i hmarked
        have hlt := follows_lt hnext
        have hroom := hfuel hlt
        have hrec := @ih next (Function.update map dest (some channelIndex))
          (fun i j hi hij => by
            by_cases hne : i = dest
            · subst hne
              rw [Follows, hnext] at hij
              cases hij
              exact Or.inr rfl
            · exact Or.inl (hold i j hi hij hne)) (by omega) (fun hnextlt => by
            rw [unmarked_update]
            have hmem : next ∈ (unmarked blocks map).erase dest := by
              rw [← unmarked_update map dest channelIndex, unmarked, Finset.mem_filter]
              exact ⟨Finset.mem_range.2 hnextlt, by simpa using hmarked⟩
            rw [Finset.card_erase_of_mem hmem]
            have hpos := Finset.card_pos.2 ⟨next, hmem⟩
            omega)
        exact ⟨isSome_markChain hself, hrec.2⟩

theorem markStart_closed {map : ℕ → Option ℤ} (h : Closed blocks map) {s : ℕ}
    (hs : s < blocks.length) : Closed blocks (markStart blocks map s) ∧
      (∀ j, (map j).isSome → (markStart blocks map s j).isSome) ∧
      ∀ channelIndex dest, StartAt blocks s channelIndex dest →
        (markStart blocks map s dest).isSome := by
  rcases markStart_cases blocks map s with ⟨channelIndex, dest, hstart, heq⟩ | ⟨hno, heq⟩
  · have hnext : nextBlock blocks s = some dest := by
      obtain ⟨chain, hchain⟩ := hstart
      obtain ⟨block, hblock, hterm⟩ := Option.map_eq_some_iff.1 hchain
      rw [nextBlock, hblock, Option.bind_some, hterm]
      rfl
    have hbut : ClosedBut blocks dest (Function.update map s (some channelIndex)) := by
      intro i j hi hij
      by_cases his : i = s
      · subst his
        rw [Follows, hnext] at hij
        cases hij
        exact Or.inr rfl
      · rw [Function.update_of_ne his] at hi
        exact Or.inl (isSome_update (h i j hi hij))
    have hcard : dest < blocks.length →
        ((unmarked blocks (Function.update map s (some channelIndex))).erase dest).card + 2 ≤
          blocks.length + 1 := by
      intro hdest
      have hsub : (unmarked blocks (Function.update map s (some channelIndex))).erase dest ⊆
          (Finset.range blocks.length).erase dest :=
        Finset.erase_subset_erase dest (Finset.filter_subset _ _)
      have hle := Finset.card_le_card hsub
      rw [Finset.card_erase_of_mem (Finset.mem_range.2 hdest), Finset.card_range] at hle
      omega
    obtain ⟨hdest, hclosed⟩ := markChain_closed channelIndex hbut
      (Nat.succ_pos _) hcard
    rw [heq]
    refine ⟨hclosed, fun j hj => isSome_markChain (isSome_update hj), ?_⟩
    rintro channelIndex' dest' ⟨chain', hstart'⟩
    obtain ⟨chain, hstart⟩ := hstart
    rw [hstart] at hstart'
    cases hstart'
    exact hdest
  · rw [heq]
    exact ⟨h, fun _ hj => hj, fun channelIndex dest hstart => absurd hstart (hno channelIndex dest)⟩

theorem foldl_markStart_closed {starts : List ℕ} (hstarts : ∀ s ∈ starts, s < blocks.length)
    {map : ℕ → Option ℤ} (h : Closed blocks map) :
    Closed blocks (starts.foldl (markStart blocks) map) ∧
      (∀ j, (map j).isSome → (starts.foldl (markStart blocks) map j).isSome) ∧
      ∀ s ∈ starts, ∀ channelIndex dest, StartAt blocks s channelIndex dest →
        (starts.foldl (markStart blocks) map dest).isSome := by
  induction starts generalizing map with
  | nil => exact ⟨h, fun _ hj => hj, List.forall_mem_nil _⟩
  | cons s starts ih =>
    obtain ⟨hs, hrest⟩ := List.forall_mem_cons.1 hstarts
    obtain ⟨hclosed, hmono, hdest⟩ := markStart_closed h hs
    obtain ⟨hclosed', hmono', hdest'⟩ := ih hrest hclosed
    refine ⟨hclosed', fun j hj => hmono' j (hmono j hj), List.forall_mem_cons.2 ⟨?_, hdest'⟩⟩
    exact fun channelIndex dest hstart => hmono' dest (hdest channelIndex dest hstart)

/-- **Completeness of the marks.** -/
theorem blockChannelMap_complete {i : ℕ} {channelIndex : ℤ} (h : InChain blocks i channelIndex) :
    (blockChannelMap blocks i).isSome := by
  obtain ⟨hclosed, -, hstarts⟩ := foldl_markStart_closed
    (fun s hs => List.mem_range.1 hs) (fun _ _ h => nomatch h : Closed blocks fun _ => none)
  obtain ⟨s, dest, hstart, hchain⟩ := h
  have hlt : s < blocks.length := by
    obtain ⟨chain, hchain⟩ := hstart
    obtain ⟨block, hblock, -⟩ := Option.map_eq_some_iff.1 hchain
    exact (List.getElem?_eq_some_iff.1 hblock).1
  induction hchain with
  | refl => exact hstarts s (List.mem_range.2 hlt) channelIndex dest hstart
  | tail _ hnext ih => exact hclosed _ _ ih hnext

end Mark

/-! ## The requests and the chains -/

/-- What follows the descriptor of a block: nothing, a descriptor, or an end. -/
def Block.Followed (blocks : List Block) (block : Block) : Prop :=
  block.terminator = .End ∨ ∃ next follower, block.terminator = .NextBD next ∧
    blocks[next]? = some follower ∧ (follower.bd.isSome ∨ follower.onlyEnd)

/-- Every block with a descriptor is followed by one with a descriptor, or by an end. -/
def Program.Followed : Program → Prop
  | .dmaForm _ => True
  | .blockForm blocks => ∀ block ∈ blocks, block.bd.isSome → block.Followed blocks

theorem Block.Followed.not_start {blocks : List Block} {block : Block}
    (h : block.Followed blocks) (channelIndex : ℤ) (dest chain : ℕ) :
    block.terminator ≠ .DMAStart channelIndex dest chain := by
  rcases h with h | ⟨next, -, h, -⟩
  · rw [h]
    exact nofun
  · rw [h]
    exact nofun

theorem blockRequests_channels {all : List Block} {i : ℕ} {blocks : List Block} {reqs : Requests}
    (hall : ∀ j, all[i + j]? = blocks[j]?)
    (hfollowed : ∀ block ∈ all, block.bd.isSome → block.Followed all)
    (h : blockRequests (blockChannelMap all) i blocks = some reqs) :
    List.Forall₂ (fun req cs => req.1 ∈ cs) reqs ((blocks.zipIdx i).filterMap fun block =>
      block.1.bd.map fun _ => {channelIndex | InChain all block.2 channelIndex}) := by
  induction blocks generalizing i reqs with
  | nil =>
    cases h
    exact .nil
  | cons block blocks ih =>
    have hrest : ∀ j, all[i + 1 + j]? = blocks[j]? := fun j => by
      rw [Nat.add_assoc, Nat.add_comm 1 j, hall (j + 1), List.getElem?_cons_succ]
    rw [List.zipIdx_cons]
    cases hbd : block.bd with
    | none =>
      simp only [blockRequests, hbd] at h
      rw [List.filterMap_cons_none (by simp [hbd])]
      exact ih hrest h
    | some bd =>
      simp only [blockRequests, hbd] at h
      obtain ⟨channelIndex, hmap, h⟩ := Option.bind_eq_some_iff.1 h
      obtain ⟨rest, hrest', rfl⟩ := Option.map_eq_some_iff.1 h
      rw [List.filterMap_cons_some (b := {c | InChain all i c}) (by rw [hbd]; rfl)]
      refine .cons ?_ (ih hrest hrest')
      rcases blockChannelMap_sound all i channelIndex hmap with hin | ⟨dest, chain, hstart⟩
      · exact hin
      · have hblock : all[i]? = some block := hall 0
        rw [hblock, Option.map_some, Option.some_inj] at hstart
        exact absurd hstart ((hfollowed block (List.mem_of_getElem? hblock)
          (by rw [hbd]; rfl)).not_start channelIndex dest chain)

/-- **The requests of a program are for channels whose chains hold the descriptors.** -/
theorem requests_channels {p : Program} {reqs : Requests} (hfollowed : p.Followed)
    (h : p.requests = some reqs) : List.Forall₂ (fun req cs => req.1 ∈ cs) reqs p.channels := by
  cases p with
  | dmaForm ops =>
    cases h
    rw [Program.channels]
    induction ops with
    | nil => exact .nil
    | cons op ops ih =>
      rw [List.flatMap_cons, List.flatMap_cons]
      refine List.rel_append ?_ (ih trivial)
      rw [DMAOp.requests, List.forall₂_map_left_iff, List.forall₂_map_right_iff]
      exact List.forall₂_same.2 fun bd _ => rfl
  | blockForm blocks =>
    exact blockRequests_channels (fun j => by rw [Nat.zero_add]) hfollowed h

theorem exists_blockRequests {map : ℕ → Option ℤ} {i : ℕ} {blocks : List Block}
    (h : ∀ j block, blocks[j]? = some block → block.bd.isSome → (map (i + j)).isSome) :
    ∃ reqs, blockRequests map i blocks = some reqs := by
  induction blocks generalizing i with
  | nil => exact ⟨[], rfl⟩
  | cons block blocks ih =>
    obtain ⟨rest, hrest⟩ := @ih (i + 1) fun j block' hblock' hbd => by
      rw [Nat.add_assoc, Nat.add_comm 1 j]
      exact h (j + 1) block' hblock' hbd
    cases hbd : block.bd with
    | none => exact ⟨rest, by simp only [blockRequests, hbd, hrest]⟩
    | some bd =>
      obtain ⟨channelIndex, hmap⟩ := Option.isSome_iff_exists.1 (h 0 block rfl (by rw [hbd]; rfl))
      rw [Nat.add_zero] at hmap
      exact ⟨(channelIndex, bd) :: rest, by
        simp only [blockRequests, hbd, hmap, Option.bind_some, hrest, Option.map_some]⟩

/-- Where every descriptor is in a chain, every one has a request. -/
theorem exists_requests {p : Program} (h : ∀ cs ∈ p.channels, cs.Nonempty) :
    ∃ reqs, p.requests = some reqs := by
  cases p with
  | dmaForm ops => exact ⟨_, rfl⟩
  | blockForm blocks =>
    refine exists_blockRequests fun j block hblock hbd => ?_
    obtain ⟨bd, hbd⟩ := Option.isSome_iff_exists.1 hbd
    have hmem : {channelIndex | InChain blocks j channelIndex} ∈
        (Program.blockForm blocks).channels :=
      List.mem_filterMap.2 ⟨(block, j), List.mem_zipIdx_iff_getElem?.2 hblock, by
        rw [hbd]
        rfl⟩
    obtain ⟨channelIndex, hin⟩ := h _ hmem
    rw [Nat.zero_add]
    exact blockChannelMap_complete hin

end MlirAie.StaticBd
