import MlirAie.Image.Check
import MlirAie.Lib.Text

/-!
# What a check against an image tells

* `str_injective`: the text of a connect tells its ports;
* `chainFrom_succ`: a chain is followed to its end;
* **`differences_same_iff`**: where nothing differs, the resources are the same exactly if no lock
  is on another tile and no chain that is hidden differs.
-/

namespace MlirAie.AgainstImage

open Route Lib

/-! ## Sets and maps -/

theorem mem_orderedSet {α κ : Type} [DecidableEq α] [LinearOrder κ] {key : α → κ} {l : List α}
    {a : α} : a ∈ orderedSet key l ↔ a ∈ l :=
  (List.perm_insertionSort _ _).mem_iff.trans List.mem_dedup

section Maps

variable {ι κ β : Type} [DecidableEq κ] {key : ι → κ} {value : ι → β}

theorem setAll_append (l : List ι) (x : ι) :
    setAll key value (l ++ [x]) = (setAll key value l).insert (key x) (value x) := by
  rw [setAll, List.foldl_append]
  rfl

theorem of_lookup_setAll {l : List ι} {a : κ} {b : β} (h : (setAll key value l).lookup a = some b) :
    ∃ x ∈ l, key x = a ∧ value x = b := by
  induction l using List.reverseRecOn with
  | nil => cases h
  | append_singleton l x ih =>
    rw [setAll_append] at h
    by_cases ha : a = key x
    · rw [ha, AList.lookup_insert] at h
      exact ⟨x, by simp, ha.symm, Option.some_inj.1 h⟩
    · rw [AList.lookup_insert_ne ha] at h
      obtain ⟨y, hy, hkey⟩ := ih h
      exact ⟨y, List.mem_append_left _ hy, hkey⟩

variable (key value) in
theorem lookup_setAll_of_mem {l : List ι} {x : ι} (hx : x ∈ l) :
    ∃ y ∈ l, key y = key x ∧ (setAll key value l).lookup (key x) = some (value y) := by
  obtain ⟨b, hb⟩ : ∃ b, (setAll key value l).lookup (key x) = some b := by
    induction l using List.reverseRecOn with
    | nil => cases hx
    | append_singleton l y ih =>
      rw [setAll_append]
      by_cases hkey : key x = key y
      · rw [hkey]
        exact ⟨_, AList.lookup_insert _⟩
      · rw [AList.lookup_insert_ne hkey]
        have hne : x ≠ y := fun heq => hkey (congrArg key heq)
        exact ih ((List.mem_append.1 hx).resolve_right fun h => hne (List.mem_singleton.1 h))
  obtain ⟨y, hy, hkey, hval⟩ := of_lookup_setAll hb
  exact ⟨y, hy, hkey, hval ▸ hb⟩

theorem lookup_setAll {l : List ι} (hl : (l.map key).Nodup) {x : ι} (hx : x ∈ l) :
    (setAll key value l).lookup (key x) = some (value x) := by
  obtain ⟨y, hy, hkey, hlookup⟩ := lookup_setAll_of_mem key value hx
  rwa [List.inj_on_of_nodup_map hl hy hx hkey] at hlookup

theorem mem_iff_lookup {l : List ι} (hl : (l.map key).Nodup) {x : ι}
    (hinj : ∀ y, key y = key x → value y = value x → y = x) :
    x ∈ l ↔ (setAll key value l).lookup (key x) = some (value x) := by
  refine ⟨fun hx => lookup_setAll hl hx, fun h => ?_⟩
  obtain ⟨y, hy, hkey, hval⟩ := of_lookup_setAll h
  exact hinj y hkey hval ▸ hy

variable (value) in
theorem mem_iff_of_lookup {l l' : List ι} (hl : (l.map key).Nodup) (hl' : (l'.map key).Nodup)
    {x : ι} (hinj : ∀ y, key y = key x → value y = value x → y = x)
    (h : ∀ b, (setAll key value l).lookup (key x) = some b ∨
        (setAll key value l').lookup (key x) = some b →
      (setAll key value l).lookup (key x) = (setAll key value l').lookup (key x)) :
    x ∈ l ↔ x ∈ l' := by
  rw [mem_iff_lookup hl hinj, mem_iff_lookup hl' hinj]
  exact ⟨fun hx => h _ (Or.inl hx) ▸ hx, fun hx => h _ (Or.inr hx) ▸ hx⟩

end Maps

theorem mem_keys_of_lookup {κ β : Type} [DecidableEq κ] {m : OrderedMap κ β} {a : κ} {b : β}
    (h : m.lookup a = some b) : a ∈ m.keys :=
  AList.lookup_isSome.1 (Option.isSome_iff_exists.2 ⟨b, h⟩)

theorem both_eq_nil {β : Type} {a b : OrderedMap String β}
    {fn : String → Option β → Option β → List String} (h : both a b fn = []) {name : String}
    {x : β} (hx : a.lookup name = some x ∨ b.lookup name = some x) :
    fn name (a.lookup name) (b.lookup name) = [] := by
  refine List.flatMap_eq_nil_iff.1 h name (mem_orderedSet.2 (List.mem_append.2 ?_))
  exact hx.imp mem_keys_of_lookup mem_keys_of_lookup

/-! ## Texts -/

theorem colon_not_mem_stringify (b : WireBundle) : ':' ∉ b.stringify.toList := by
  cases b <;> decide

theorem wireBundle_stringify_injective {a b : WireBundle} (h : a.stringify = b.stringify) :
    a = b := by
  cases a <;> cases b <;> first | rfl | exact absurd h (by decide)

/-- The text of a connect tells its ports. -/
theorem str_injective {c c' : ConnectOp} (h : c.str = c'.str) : c = c' := by
  obtain ⟨⟨b1, n1⟩, ⟨b2, n2⟩⟩ := c
  obtain ⟨⟨b1', n1'⟩, ⟨b2', n2'⟩⟩ := c'
  simp only [ConnectOp.str, describePort, String.append_assoc] at h
  obtain ⟨h1, h⟩ := text_split ":" rfl (colon_not_mem_stringify _) (colon_not_mem_stringify _) h
  obtain ⟨h2, h⟩ := text_split "->" rfl (not_mem_toString_nat rfl _) (not_mem_toString_nat rfl _) h
  obtain ⟨h3, h4⟩ := text_split ":" rfl (colon_not_mem_stringify _) (colon_not_mem_stringify _) h
  rw [wireBundle_stringify_injective h1, wireBundle_stringify_injective h3,
    Nat.repr_injective h2, Nat.repr_injective h4]

theorem intercalate_ne_empty {sep : String} {l : List String} (hl : l ≠ [])
    (h : ∀ s ∈ l, s ≠ "") : sep.intercalate l ≠ "" := by
  obtain ⟨s, l, rfl⟩ := List.exists_cons_of_ne_nil hl
  have hs := h s List.mem_cons_self
  by_cases hnil : l = []
  · rwa [hnil, String.intercalate_singleton]
  · rw [String.intercalate_cons_of_ne_nil hnil]
    intro heq
    rw [String.append_assoc] at heq
    exact hs (String.append_eq_empty_iff.1 heq).1

/-! ## Chains -/

theorem mem_buffersOf {ops : List Operation} {s : String} : s ∈ buffersOf ops ↔
    ∃ u ∈ bufferUses ops, s = u.1 ++ "@" ++ toString u.2 := by
  simp only [buffersOf, bufferUses, List.mem_filterMap, List.mem_toFinset]
  constructor
  · rintro ⟨op, hop, h⟩
    cases op with
    | dmaBd buffer offset bdId =>
      dsimp only at h
      split_ifs at h with hname
      exact ⟨_, ⟨_, hop, if_neg hname⟩, (Option.some_inj.1 h).symm⟩
    | useLock lock => cases h
    | other => cases h
  · rintro ⟨u, ⟨op, hop, h⟩, rfl⟩
    cases op with
    | dmaBd buffer offset bdId =>
      dsimp only at h
      split_ifs at h with hname
      exact ⟨_, hop, by rw [← Option.some_inj.1 h]; exact if_neg hname⟩
    | useLock lock => cases h
    | other => cases h

theorem buffersOf_eq_nil {ops : List Operation} : buffersOf ops = [] ↔ bufferUses ops = ∅ := by
  rw [List.eq_nil_iff_forall_not_mem, Finset.eq_empty_iff_forall_notMem]
  constructor
  · intro h u hu
    exact h _ (mem_buffersOf.2 ⟨u, hu, rfl⟩)
  · intro h s hs
    obtain ⟨u, hu, -⟩ := mem_buffersOf.1 hs
    exact h u hu

theorem locksOf_ne_empty {ops : List Operation} : ∀ s ∈ locksOf ops, s ≠ "" := by
  intro s hs
  obtain ⟨op, -, h⟩ := List.mem_filterMap.1 hs
  cases op with
  | useLock lock =>
    dsimp only at h
    split_ifs at h with hname
    exact Option.some_inj.1 h ▸ hname
  | dmaBd buffer offset bdId => cases h
  | other => cases h

theorem buffersOf_ne_empty {ops : List Operation} : ∀ s ∈ buffersOf ops, s ≠ "" := by
  intro s hs heq
  obtain ⟨u, -, rfl⟩ := mem_buffersOf.1 hs
  rw [String.append_assoc] at heq
  have hat := (String.append_eq_empty_iff.1 (String.append_eq_empty_iff.1 heq).2).1
  exact absurd hat (by decide)

theorem identity_ne_empty {c : Chain} (h : c.Touches) : identity c.ops ≠ "" := by
  have hsorted : ∀ {l : List String}, l ≠ [] → orderedSet id l ≠ [] := by
    intro l hl
    obtain ⟨s, hs⟩ := List.exists_mem_of_ne_nil l hl
    exact List.ne_nil_of_mem (mem_orderedSet.2 hs)
  rw [identity]
  split_ifs with hnil
  · rcases h with huses | hlocks
    · exact absurd (buffersOf_eq_nil.1 hnil) huses
    · refine intercalate_ne_empty (hsorted fun hl => hlocks ?_) fun s hs =>
        locksOf_ne_empty s (mem_orderedSet.1 hs)
      rw [hl]
      rfl
  · exact intercalate_ne_empty (hsorted hnil) fun s hs =>
      buffersOf_ne_empty s (mem_orderedSet.1 hs)

/-! ## Boxes -/

theorem mem_connectsOf {boxes : List Box} {tile : TileID} {c : ConnectOp} :
    c ∈ connectsOf boxes tile ↔ ∃ box ∈ boxes, box.tile = tile ∧ c ∈ box.connects := by
  simp [connectsOf, and_assoc]

/-- The boxes of a kind add their connects under their tiles. -/
theorem mem_switches {kind : String} {boxes : List Box}
    {m : OrderedMap (TileID × String) (List String)} {tile : TileID} {k s : String} :
    s ∈ ((boxes.foldl (addSwitch kind) m).lookup (tile, k)).getD [] ↔
      s ∈ (m.lookup (tile, k)).getD [] ∨ k = kind ∧ ∃ c ∈ connectsOf boxes tile, c.str = s := by
  induction boxes using List.reverseRecOn with
  | nil => simp [connectsOf]
  | append_singleton boxes box ih =>
    have happend : ∀ c, c ∈ connectsOf (boxes ++ [box]) tile ↔
        c ∈ connectsOf boxes tile ∨ box.tile = tile ∧ c ∈ box.connects := by
      intro c
      simp only [mem_connectsOf, List.mem_append, List.mem_singleton, or_and_right, exists_or,
        exists_eq_left]
    rw [List.foldl_append, List.foldl_cons, List.foldl_nil]
    by_cases hkey : (tile, k) = (box.tile, kind)
    · obtain ⟨rfl, rfl⟩ := Prod.mk.inj hkey
      rw [addSwitch, AList.lookup_insert, Option.getD_some, mem_orderedSet, List.mem_append, ih]
      simp only [happend, List.mem_map, true_and, or_and_right, exists_or, or_assoc]
    · rw [addSwitch, AList.lookup_insert_ne hkey, ih]
      refine or_congr Iff.rfl (and_congr_right fun hk => ?_)
      have htile : box.tile ≠ tile := fun heq => hkey (by rw [heq, hk])
      simp only [happend, htile, false_and, or_false]

theorem switchboxes_of_allocationOf {device : DeviceOp} {tile : TileID} {c : ConnectOp} :
    c.str ∈ ((allocationOf device).switches.lookup (tile, "switchbox")).getD [] ↔
      c ∈ connectsOf device.switchboxes tile := by
  rw [allocationOf, mem_switches, mem_switches]
  constructor
  · rintro ((hnil | ⟨-, c', hc', heq⟩) | ⟨hk, -⟩)
    · cases hnil
    · exact str_injective heq ▸ hc'
    · exact absurd hk (by decide)
  · exact fun hc => Or.inl (Or.inr ⟨rfl, c, hc, rfl⟩)

theorem shimMuxes_of_allocationOf {device : DeviceOp} {tile : TileID} {c : ConnectOp} :
    c.str ∈ ((allocationOf device).switches.lookup (tile, "shim mux")).getD [] ↔
      c ∈ connectsOf device.shimMuxes tile := by
  rw [allocationOf, mem_switches, mem_switches]
  constructor
  · rintro ((hnil | ⟨hk, -⟩) | ⟨-, c', hc', heq⟩)
    · cases hnil
    · exact absurd hk (by decide)
    · exact str_injective heq ▸ hc'
  · exact fun hc => Or.inr ⟨rfl, c, hc, rfl⟩

/-- Without lines the boxes of the two allocations have the same connects. -/
theorem switches_eq {image stream : OrderedMap (TileID × String) (List String)}
    (h : switchLines image stream = []) (key : TileID × String) (s : String) :
    s ∈ (image.lookup key).getD [] ↔ s ∈ (stream.lookup key).getD [] := by
  rw [switchLines] at h
  split_ifs at h with hlines
  · by_cases hkey : key ∈ image.keys ++ stream.keys
    · have hline := List.flatMap_eq_nil_iff.1 (List.isEmpty_iff.1 hlines) key
        (mem_orderedSet.2 hkey)
      dsimp only at hline
      split_ifs at hline with hsame
      simp only [Bool.and_eq_true, List.isEmpty_iff, List.filter_eq_nil_iff, decide_eq_true_eq,
        not_not] at hsame
      exact ⟨hsame.1 s, hsame.2 s⟩
    · rw [List.mem_append, not_or] at hkey
      rw [AList.lookup_eq_none.2 hkey.1, AList.lookup_eq_none.2 hkey.2]
  · simp at h

/-! ## Nothing differs -/

theorem differences_eq_nil {image stream : Allocation} (h : differences image stream = []) :
    both image.shimEnds stream.shimEnds shimEndLines = [] ∧
      movedLines image.buffers stream.buffers = [] ∧
      both image.chains stream.chains chainLines = [] ∧
      both image.buffers stream.buffers bufferLines = [] ∧
      both image.locks stream.locks lockLines = [] ∧
      switchLines image.switches stream.switches = [] := by
  simp only [differences, List.append_eq_nil_iff] at h
  tauto

theorem shimEndLines_eq_nil {name : String} {i s : Option Channel}
    (h : shimEndLines name i s = []) : ∃ c, i = some c ∧ s = some c := by
  rw [shimEndLines] at h
  split_ifs at h with hsame
  simp only [Bool.and_eq_true, decide_eq_true_eq] at hsame
  obtain ⟨c, hc⟩ := Option.isSome_iff_exists.1 hsame.1.1
  exact ⟨c, hc, hsame.2 ▸ hc⟩

theorem chainLines_eq_nil {name : String} {i s : Option (Channel × List ℤ)}
    (h : chainLines name i s = []) : ∃ c, i = some c ∧ s = some c := by
  cases i with
  | none => cases h
  | some i =>
    cases s with
    | none => cases h
    | some s =>
      rw [chainLines] at h
      split_ifs at h with hchannel hids
      exact ⟨i, rfl, by rw [Prod.ext hchannel (not_not.1 hids)]⟩

theorem bufferLines_eq_nil {name : String} {i s : Option (TileID × Option ℤ × Option ℤ)}
    {x : TileID × Option ℤ × Option ℤ} (hx : i = some x ∨ s = some x)
    (h : bufferLines name i s = []) :
    ∃ b b', i = some b ∧ s = some b' ∧ (b.1 = b'.1 → b.2 = b'.2) := by
  cases i with
  | none =>
    cases s with
    | none => simp at hx
    | some s => cases h
  | some i =>
    cases s with
    | none => cases h
    | some s =>
      refine ⟨i, s, rfl, rfl, fun htile => ?_⟩
      rw [bufferLines] at h
      split_ifs at h with hne heq
      · exact absurd htile hne
      · exact heq

theorem lockLines_eq_nil {name : String} {i s : Option (TileID × Option ℤ)}
    {x : TileID × Option ℤ} (hx : i = some x ∨ s = some x) (h : lockLines name i s = []) :
    ∃ l l', i = some l ∧ s = some l' ∧ (l.1 = l'.1 → l = l') := by
  cases i with
  | none =>
    cases s with
    | none => simp at hx
    | some s => cases h
  | some i =>
    cases s with
    | none => cases h
    | some s =>
      refine ⟨i, s, rfl, rfl, fun htile => ?_⟩
      rw [lockLines] at h
      split_ifs at h with heq hne
      · exact heq
      · exact absurd htile hne

theorem movedLines_eq_nil {image stream : OrderedMap String (TileID × Option ℤ × Option ℤ)}
    (h : movedLines image stream = []) {name : String} {i s : TileID × Option ℤ × Option ℤ}
    (hi : image.lookup name = some i) (hs : stream.lookup name = some s) : i.1 = s.1 := by
  by_contra hne
  have hmoved := List.map_eq_nil_iff.1 h
  have hempty : ∀ t, t ∉ orderedSet (fun t : TileID × TileID => toLex (tileKey t.1, tileKey t.2))
      _ := List.eq_nil_iff_forall_not_mem.1 hmoved
  refine hempty (i.1, s.1) (mem_orderedSet.2 (List.mem_map.2 ⟨(name, i.1, s.1), ?_, rfl⟩))
  refine List.mem_filterMap.2 ⟨name, mem_orderedSet.2 (mem_keys_of_lookup hi), ?_⟩
  simp only [hi, hs]
  exact if_pos fun heq => hne heq.symm

/-! ## The resources of two devices -/

section Resources

variable {image stream : DeviceOp}

theorem symName_eq {n n' : Option String} (hn : nameOf n ≠ "") (h : nameOf n' = nameOf n) :
    n' = n := by
  cases n with
  | none => exact absurd rfl hn
  | some s =>
    cases n' with
    | none => exact absurd h.symm hn
    | some s' => exact congrArg some h

theorem shimAllocs_of_lines (h : both (allocationOf image).shimEnds (allocationOf stream).shimEnds
    shimEndLines = []) (a : ShimDMAAllocationOp) :
    a ∈ image.shimAllocs ↔ a ∈ stream.shimAllocs := by
  refine mem_iff_of_lookup (·.channel) image.shim_names stream.shim_names ?_ fun c hc => ?_
  · rintro ⟨n, c⟩ rfl rfl
    rfl
  · obtain ⟨c, hi, hs⟩ := shimEndLines_eq_nil (both_eq_nil h hc)
    exact hi.trans hs.symm

theorem buffers_of_lines
    (hmoved : movedLines (allocationOf image).buffers (allocationOf stream).buffers = [])
    (h : both (allocationOf image).buffers (allocationOf stream).buffers bufferLines = [])
    (b : BufferOp) (hb : nameOf b.symName ≠ "") : b ∈ image.buffers ↔ b ∈ stream.buffers := by
  have hiff := mem_iff_of_lookup (fun b : BufferOp => (b.tile, b.address, b.memBank))
    image.buffer_names stream.buffer_names (x := b) ?_ fun x hx => ?_
  · simpa [hb] using hiff
  · rintro ⟨n, t, a, m⟩ hname hvalue
    obtain rfl := symName_eq hb hname
    cases b
    simp_all
  · obtain ⟨i, s, hi, hs, hsame⟩ := bufferLines_eq_nil hx (both_eq_nil h hx)
    have htile := movedLines_eq_nil hmoved hi hs
    rw [show i = s from Prod.ext htile (hsame htile)] at hi
    exact hi.trans hs.symm

theorem locks_of_lines
    (h : both (allocationOf image).locks (allocationOf stream).locks lockLines = [])
    (hlocks : ∀ l ∈ image.locks, ∀ l' ∈ stream.locks, nameOf l.symName ≠ "" →
      nameOf l.symName = nameOf l'.symName → l.tile = l'.tile)
    (l : LockOp) (hl : nameOf l.symName ≠ "") : l ∈ image.locks ↔ l ∈ stream.locks := by
  have hiff := mem_iff_of_lookup (fun l : LockOp => (l.tile, l.lockID))
    image.lock_names stream.lock_names (x := l) ?_ fun x hx => ?_
  · simpa [hl] using hiff
  · rintro ⟨n, t, i⟩ hname hvalue
    obtain rfl := symName_eq hl hname
    cases l
    simp_all
  · obtain ⟨i, s, hi, hs, hsame⟩ := lockLines_eq_nil hx (both_eq_nil h hx)
    obtain ⟨li, hli, hni, hvi⟩ := of_lookup_setAll hi
    obtain ⟨ls, hls, hns, hvs⟩ := of_lookup_setAll hs
    have htile := hlocks li (List.mem_filter.1 hli).1 ls (List.mem_filter.1 hls).1
      (hni ▸ hl) (hni.trans hns.symm)
    rw [hsame (by rw [← hvi, ← hvs]; exact htile)] at hi
    exact hi.trans hs.symm

theorem same_of_not_hidden {c : Chain} (hc : c ∈ image.chains) (htouches : c.Touches)
    (hhidden : ¬ Hidden image stream c)
    (h : ∀ x, (allocationOf image).chains.lookup (identity c.ops) = some x →
      (allocationOf stream).chains.lookup (identity c.ops) = some x) :
    ∃ c' ∈ stream.chains, c.Same c' := by
  simp only [Hidden, not_or, not_exists, not_and, not_not] at hhidden
  obtain ⟨hdirect, himage, hstream⟩ := hhidden
  have hstarted := (List.mem_append.1 hc).resolve_right hdirect
  have hmem : c ∈ image.started.filter (identity ·.ops ≠ "") :=
    List.mem_filter.2 ⟨hstarted, decide_eq_true (identity_ne_empty htouches)⟩
  obtain ⟨d, hd, hname, hlookup⟩ := lookup_setAll_of_mem (identity ·.ops)
    (fun c : Chain => (c.channel, bdIdsOf c.ops)) hmem
  have hsame := himage d (List.mem_filter.1 hd).1 hname
  obtain ⟨d', hd', hname', hvalue⟩ := of_lookup_setAll (h _ hlookup)
  have hd' := (List.mem_filter.1 hd').1
  obtain ⟨hchannel, hids⟩ := Prod.mk.inj hvalue
  exact ⟨d', List.mem_append_left _ hd', hstream d' hd' hname',
    hsame.2.1.trans hchannel.symm, hsame.2.2.trans hids.symm⟩

theorem runOnOperation_eq_nil_iff {clImage : String} {image stream : List (String × DeviceOp)} :
    runOnOperation clImage image stream = [] ↔
      ∀ d ∈ stream, ∃ target, image.reverse.lookup d.1 = some target ∧
        differences (allocationOf target) (allocationOf d.2) = [] := by
  rw [runOnOperation, List.filterMap_eq_nil_iff]
  refine forall₂_congr fun d _ => ?_
  cases hlookup : image.reverse.lookup d.1 with
  | none => simp [hlookup]
  | some target => simp [hlookup]

/-- **The check tells the same resources** from others exactly where nothing is hidden from it: no
lock is on another tile, and no chain that shares its name, or that is an `aie.dma`, differs. -/
theorem differences_same_iff (image stream : DeviceOp)
    (h : differences (allocationOf image) (allocationOf stream) = []) :
    SameResources image stream ↔ NothingHidden image stream := by
  obtain ⟨hshim, hmoved, hchains, hbuffers, hlocks, hswitches⟩ := differences_eq_nil h
  constructor
  · intro hsame
    refine ⟨fun l hl l' hl' hnamed hname => ?_, fun c hc ht _ => hsame.imageChains c hc ht,
      fun c hc ht _ => hsame.streamChains c hc ht⟩
    have hls := (hsame.locks l hnamed).1 hl
    have heq := List.inj_on_of_nodup_map stream.lock_names
      (List.mem_filter.2 ⟨hls, decide_eq_true hnamed⟩)
      (List.mem_filter.2 ⟨hl', decide_eq_true (hname ▸ hnamed)⟩) hname
    exact congrArg LockOp.tile heq
  · intro hhidden
    refine ⟨shimAllocs_of_lines hshim, buffers_of_lines hmoved hbuffers,
      locks_of_lines hlocks hhidden.locks, fun c hc ht => ?_, fun c hc ht => ?_,
      fun tile c => ?_, fun tile c => ?_⟩
    · by_cases hc' : Hidden image stream c
      · exact hhidden.imageChains c hc ht hc'
      · refine same_of_not_hidden hc ht hc' fun x hx => ?_
        obtain ⟨y, hi, hs⟩ := chainLines_eq_nil (both_eq_nil hchains (Or.inl hx))
        rw [hs, ← hi, hx]
    · by_cases hc' : Hidden stream image c
      · exact hhidden.streamChains c hc ht hc'
      · refine same_of_not_hidden hc ht hc' fun x hx => ?_
        obtain ⟨y, hi, hs⟩ := chainLines_eq_nil (both_eq_nil hchains (Or.inr hx))
        rw [hi, ← hs, hx]
    · rw [← switchboxes_of_allocationOf, ← switchboxes_of_allocationOf]
      exact switches_eq hswitches _ _
    · rw [← shimMuxes_of_allocationOf, ← shimMuxes_of_allocationOf]
      exact switches_eq hswitches _ _

end Resources

def lockOn (tile : TileID) : DeviceOp where
  shimAllocs := []
  buffers := []
  locks := [⟨some "full", tile, some 0⟩]
  programs := []
  tasks := []
  switchboxes := []
  shimMuxes := []
  shim_names := List.nodup_nil
  buffer_names := List.nodup_nil
  lock_names := List.nodup_singleton _

theorem lockOn_same_iff : SameResources (lockOn ⟨0, 1⟩) (lockOn ⟨0, 1⟩) ↔
    NothingHidden (lockOn ⟨0, 1⟩) (lockOn ⟨0, 1⟩) :=
  differences_same_iff _ _ rfl

/-- A lock on another tile, without a buffer that moved along, is not reported. -/
theorem lockOn_moved :
    differences (allocationOf (lockOn ⟨0, 1⟩)) (allocationOf (lockOn ⟨0, 2⟩)) = [] ∧
      ¬ SameResources (lockOn ⟨0, 1⟩) (lockOn ⟨0, 2⟩) := by
  refine ⟨rfl, fun hsame => ?_⟩
  have hmem := (hsame.locks ⟨some "full", ⟨0, 1⟩, some 0⟩ (by decide)).1 List.mem_cons_self
  simp [lockOn] at hmem

end MlirAie.AgainstImage
