import MlirAie.CtrlOverlay.Columns

/-!
# Devices that share their tiles

* `firstID_shared_of_mem`, `firstID_shared_of_not_mem`: the controller ids once tiles are shared;
* `overlayFlows`, `overlayAllocations`: what the standalone overlay of some devices has;
* **`shape_eq_iff`**: when a device with the overlay has the same.
-/

namespace MlirAie.CtrlOverlay

open Route Lib

variable {δ : Type} {opts : Options} {target : TargetModel} {d : Device δ} {t : TileID}
  {tiles tiles' : List TileOp} {devices : List (Device δ)}

/-! ## Finding tiles -/

theorem coords_append : coords (tiles ++ tiles') = coords tiles ∪ coords tiles' := by
  ext t
  simp [coords, or_and_right, exists_or]

theorem find_eq_none (h : t ∉ coords tiles) :
    (tiles.find? fun op => op.tileID = t) = none := by
  rw [Option.eq_none_iff_forall_not_mem]
  exact fun op hop => h ((find_isSome t).1 ⟨op, hop⟩)

theorem coords_reverse : coords tiles.reverse = coords tiles := by
  ext t
  simp [coords]

theorem firstID_append_left (h : t ∈ coords tiles) :
    firstID target (tiles ++ tiles') t = firstID target tiles t := by
  obtain ⟨op, hop⟩ := (find_isSome t).2 h
  unfold firstID
  rw [List.find?_append, hop]
  rfl

theorem firstID_append_right (h : t ∉ coords tiles) :
    firstID target (tiles ++ tiles') t = firstID target tiles' t := by
  unfold firstID
  rw [List.find?_append, find_eq_none h, Option.none_or]

theorem lastID_eq : lastID target tiles t = firstID target tiles.reverse t := rfl

theorem firstID_map_clone : firstID target (tiles.map TileOp.clone) t = firstID target tiles t := by
  unfold firstID
  rw [List.find?_map]
  show foundID target (Option.map _ (tiles.find? fun op => op.tileID = t)) t = _
  cases tiles.find? fun op => op.tileID = t <;> rfl

theorem coords_map_clone : coords (tiles.map TileOp.clone) = coords tiles := by
  ext t
  constructor
  · rintro ⟨op', hop', rfl⟩
    obtain ⟨op, hop, rfl⟩ := List.mem_map.1 hop'
    exact ⟨op, hop, rfl⟩
  · rintro ⟨op, hop, rfl⟩
    exact ⟨op.clone, List.mem_map_of_mem hop, rfl⟩

theorem firstID_reverse (h : (tiles.map TileOp.tileID).Nodup) :
    firstID target tiles.reverse t = firstID target tiles t := by
  by_cases ht : t ∈ coords tiles
  · obtain ⟨op, hop⟩ := (find_isSome t).2 ht
    obtain ⟨op', hop'⟩ := (find_isSome t).2 (coords_reverse ▸ ht)
    obtain ⟨hmem, hid⟩ := find_tileID hop
    obtain ⟨hmem', hid'⟩ := find_tileID hop'
    have heq : op' = op := List.inj_on_of_nodup_map h (List.mem_reverse.1 hmem') hmem
      (hid'.trans hid.symm)
    rw [firstID_of_find hop, firstID_of_find hop', heq]
  · unfold firstID
    rw [find_eq_none ht, find_eq_none (by rwa [coords_reverse])]

/-! ## Sharing tiles -/

def addPrototype (protos : List TileOp) (t : TileOp) : List TileOp :=
  if protos.any fun p => p.tileID = t.tileID then protos else protos ++ [t]

theorem any_iff_coords {op : TileOp} :
    (tiles.any fun p => p.tileID = op.tileID) = true ↔ op.tileID ∈ coords tiles := by
  rw [List.any_eq_true]
  simp [coords]

theorem find_addPrototypes (protos ops : List TileOp) :
    ((ops.foldl addPrototype protos).find? fun op => op.tileID = t) =
      (protos ++ ops).find? fun op => op.tileID = t := by
  induction ops generalizing protos with
  | nil => rw [List.append_nil, List.foldl_nil]
  | cons op ops ih =>
    rw [List.foldl_cons, ih]
    unfold addPrototype
    by_cases h : (protos.any fun p => p.tileID = op.tileID) = true
    · rw [if_pos h, List.find?_append, List.find?_append, List.find?_cons]
      by_cases hop : op.tileID = t
      · have ht : t ∈ coords protos := by rw [← hop]; exact any_iff_coords.1 h
        obtain ⟨p, hp⟩ := (find_isSome t).2 ht
        rw [hp]
        rfl
      · rw [decide_eq_false hop]
    · rw [if_neg h, List.append_assoc, List.singleton_append]

theorem nodup_addPrototypes (protos ops : List TileOp) (h : (protos.map TileOp.tileID).Nodup) :
    ((ops.foldl addPrototype protos).map TileOp.tileID).Nodup := by
  induction ops generalizing protos with
  | nil => exact h
  | cons op ops ih =>
    refine ih _ ?_
    unfold addPrototype
    by_cases hany : (protos.any fun p => p.tileID = op.tileID) = true
    · rwa [if_pos hany]
    · rw [if_neg hany, List.map_append, List.map_singleton]
      refine List.Nodup.append h (List.nodup_singleton _) ?_
      rw [List.disjoint_singleton]
      intro hmem
      obtain ⟨p, hp, hid⟩ := List.mem_map.1 hmem
      exact hany (any_iff_coords.2 ⟨p, hp, hid⟩)

theorem find_collectTileUnion :
    ((collectTileUnion devices).find? fun op => op.tileID = t) =
      (devices.flatMap Device.tiles).find? fun op => op.tileID = t :=
  find_addPrototypes [] _

theorem nodup_collectTileUnion : ((collectTileUnion devices).map TileOp.tileID).Nodup :=
  nodup_addPrototypes [] _ List.nodup_nil

theorem coords_collectTileUnion :
    coords (collectTileUnion devices) = coords (devices.flatMap Device.tiles) := by
  ext t
  rw [← find_isSome, ← find_isSome, find_collectTileUnion]

theorem firstID_collectTileUnion :
    firstID target (collectTileUnion devices) t =
      firstID target (devices.flatMap Device.tiles) t := by
  unfold firstID
  rw [find_collectTileUnion]

def missingTiles (d : Device δ) (protos : List TileOp) : List TileOp :=
  protos.filter fun p => d.tiles.all fun t => t.tileID ≠ p.tileID

theorem mem_missingTiles {protos : List TileOp} {op : TileOp} :
    op ∈ missingTiles d protos ↔ op ∈ protos ∧ op.tileID ∉ coords d.tiles := by
  unfold missingTiles coords
  rw [List.mem_filter]
  simp

theorem coords_missingTiles (protos : List TileOp) :
    coords (missingTiles d protos) = coords protos \ coords d.tiles := by
  ext t
  constructor
  · rintro ⟨op, hop, rfl⟩
    obtain ⟨hop, hnot⟩ := mem_missingTiles.1 hop
    exact ⟨⟨op, hop, rfl⟩, hnot⟩
  · rintro ⟨⟨op, hop, rfl⟩, hnot⟩
    exact ⟨op, mem_missingTiles.2 ⟨hop, hnot⟩, rfl⟩

theorem firstID_missingTiles {protos : List TileOp} (h : t ∉ coords d.tiles) :
    firstID target (missingTiles d protos) t = firstID target protos t := by
  unfold firstID missingTiles
  rw [List.find?_filter]
  congr 1
  refine List.find?_congr fun op _ => ?_
  by_cases hop : op.tileID = t
  · have hall : ∀ u ∈ d.tiles, u.tileID ≠ t := fun u hu heq => h ⟨u, hu, heq⟩
    simpa [hop] using hall
  · simp [hop]

/-- A device with the tiles of all devices. -/
def shared (devices : List (Device δ)) (d : Device δ) : Device δ :=
  d.cloneMissingTiles (collectTileUnion devices)

theorem shared_tiles (devices : List (Device δ)) (d : Device δ) :
    (shared devices d).tiles =
      (missingTiles d (collectTileUnion devices)).map TileOp.clone ++ d.tiles := rfl

theorem coords_shared (hd : d ∈ devices) :
    coords (shared devices d).tiles = coords (devices.flatMap Device.tiles) := by
  have hsub : coords d.tiles ⊆ coords (devices.flatMap Device.tiles) := by
    rintro t ⟨op, hop, rfl⟩
    exact ⟨op, List.mem_flatMap.2 ⟨d, hd, hop⟩, rfl⟩
  rw [shared_tiles, coords_append, coords_map_clone, coords_missingTiles,
    coords_collectTileUnion, Set.sdiff_union_of_subset hsub]

theorem not_mem_missing {protos : List TileOp} (h : t ∈ coords d.tiles) :
    t ∉ coords ((missingTiles d protos).map TileOp.clone) := by
  rw [coords_map_clone, coords_missingTiles]
  exact fun hand => hand.2 h

theorem firstID_shared_of_mem (h : t ∈ coords d.tiles) :
    firstID target (shared devices d).tiles t = firstID target d.tiles t := by
  rw [shared_tiles, firstID_append_right (not_mem_missing h)]

theorem firstID_shared_of_not_mem (h : t ∉ coords d.tiles) :
    firstID target (shared devices d).tiles t =
      firstID target (devices.flatMap Device.tiles) t := by
  rw [shared_tiles]
  by_cases hmem : t ∈ coords ((missingTiles d (collectTileUnion devices)).map TileOp.clone)
  · rw [firstID_append_left hmem, firstID_map_clone, firstID_missingTiles h,
      firstID_collectTileUnion]
  · rw [firstID_append_right hmem]
    rw [coords_map_clone, coords_missingTiles, coords_collectTileUnion] at hmem
    have hnot : t ∉ coords (devices.flatMap Device.tiles) := fun ht => hmem ⟨ht, h⟩
    unfold firstID
    rw [find_eq_none h, find_eq_none hnot]

theorem lastID_shared_of_mem (h : t ∈ coords d.tiles) :
    lastID target (shared devices d).tiles t = lastID target d.tiles t := by
  rw [lastID_eq, lastID_eq, shared_tiles, List.reverse_append]
  exact firstID_append_left (by rwa [coords_reverse])

theorem lastID_shared_of_not_mem (h : t ∉ coords d.tiles) :
    lastID target (shared devices d).tiles t =
      firstID target (devices.flatMap Device.tiles) t := by
  have hnodup : (((missingTiles d (collectTileUnion devices)).map TileOp.clone).map
      TileOp.tileID).Nodup := by
    rw [List.map_map]
    exact (nodup_collectTileUnion).sublist (List.filter_sublist.map _)
  rw [← firstID_shared_of_not_mem h, lastID_eq, shared_tiles, List.reverse_append,
    firstID_append_right (by rwa [coords_reverse])]
  by_cases hmem : t ∈ coords ((missingTiles d (collectTileUnion devices)).map TileOp.clone)
  · rw [firstID_reverse hnodup, firstID_append_left hmem]
  · rw [firstID_append_right hmem]
    unfold firstID
    rw [find_eq_none h, find_eq_none (by rwa [coords_reverse])]

theorem respID_shared_of_mem (h : t ∈ coords d.tiles) :
    respID target opts (shared devices d).tiles t = respID target opts d.tiles t := by
  unfold respID
  rw [firstID_shared_of_mem h, lastID_shared_of_mem h]

theorem respID_shared_of_not_mem (h : t ∉ coords d.tiles) :
    respID target opts (shared devices d).tiles t =
      firstID target (devices.flatMap Device.tiles) t := by
  unfold respID
  rw [firstID_shared_of_not_mem h, lastID_shared_of_not_mem h, ite_self]

/-! ## What a device and the standalone overlay end with -/

section Shape

variable (opts : Options) (target : TargetModel) (tokenTiles : List TileID)

def Responds (t : TileID) : Prop :=
  target.isAIE1 = false ∧ routesResponse opts target tokenTiles t = true

def Requests : Prop := target.isAIE1 = false ∧ opts.routeShimDmaToTileCTRL = true

def overlayFlows (devices : List (Device δ)) : Set CtrlFlow :=
  {x | (∃ t ∈ Cover opts (coords (devices.flatMap Device.tiles)), Responds opts target tokenTiles t ∧
      x = responseFlow target (firstID target (devices.flatMap Device.tiles) t) t) ∨
    Requests opts target ∧ ∃ t ∈ Cover opts (coords (devices.flatMap Device.tiles)),
      x = requestFlow target (firstID target (devices.flatMap Device.tiles) t) t}

def overlayAllocations (devices : List (Device δ)) : Set ShimDMAAllocation :=
  {a | Requests opts target ∧ ∃ t ∈ Cover opts (coords (devices.flatMap Device.tiles)),
    a = requestAllocation target t}

end Shape

variable {tokenTiles : List TileID} {d₀ d' : Device δ}

/-- `applyOverlayToDevice_overlaid`, with targets the pass is disabled for. -/
theorem applyOverlayToDevice_flows
    (hrun : applyOverlayToDevice opts target tokenTiles d₀ = .ok d) (x : CtrlFlow) :
    x ∈ d.ctrlFlows ↔ x ∈ d₀.ctrlFlows ∨
      (∃ t ∈ RespDom opts (coords d₀.tiles), Responds opts target tokenTiles t ∧
        x = responseFlow target (respID target opts d₀.tiles t) t) ∨
      (Requests opts target ∧ ∃ t ∈ Cover opts (coords d₀.tiles),
        x = requestFlow target (firstID target d₀.tiles t) t) := by
  unfold Responds Requests
  cases htarget : target.isAIE1 with
  | false =>
    rw [(applyOverlayToDevice_overlaid htarget hrun).flows]
    simp
  | true =>
    unfold applyOverlayToDevice at hrun
    rw [htarget, if_pos rfl] at hrun
    cases hrun
    simp

theorem applyOverlayToDevice_allocations
    (hrun : applyOverlayToDevice opts target tokenTiles d₀ = .ok d) (a : ShimDMAAllocation) :
    a ∈ d.ctrlAllocations ↔ a ∈ d₀.ctrlAllocations ∨
      (Requests opts target ∧ ∃ t ∈ Cover opts (coords d₀.tiles),
        a = requestAllocation target t) ∧ a.symName ∉ d₀.names := by
  unfold Requests
  cases htarget : target.isAIE1 with
  | false =>
    rw [(applyOverlayToDevice_overlaid htarget hrun).allocations]
    simp
  | true =>
    unfold applyOverlayToDevice at hrun
    rw [htarget, if_pos rfl] at hrun
    cases hrun
    simp

theorem applyOverlayToDevice_device
    (hrun : applyOverlayToDevice opts target tokenTiles d₀ = .ok d) : d.device = d₀.device := by
  cases htarget : target.isAIE1 with
  | false => exact (applyOverlayToDevice_overlaid htarget hrun).device
  | true =>
    unfold applyOverlayToDevice at hrun
    rw [htarget, if_pos rfl] at hrun
    cases hrun
    rfl

theorem requestFlow_inj {id id' : ℕ} {u : TileID}
    (h : requestFlow target id t = requestFlow target id' u) :
    t = u ∧ BitVec.ofNat 8 id = BitVec.ofNat 8 id' := by
  unfold requestFlow at h
  rw [CtrlFlow.mk.injEq, Endpoint.mk.injEq, Endpoint.mk.injEq] at h
  exact ⟨Option.some_injective _ h.2.2.1, h.1⟩

theorem responseFlow_inj {id id' : ℕ} {u : TileID}
    (h : responseFlow target id t = responseFlow target id' u) :
    t = u ∧ BitVec.ofNat 8 id = BitVec.ofNat 8 id' := by
  unfold responseFlow at h
  rw [CtrlFlow.mk.injEq, Endpoint.mk.injEq, Endpoint.mk.injEq] at h
  exact ⟨Option.some_injective _ h.2.1.1, h.1⟩

theorem requestFlow_ne {id id' : ℕ} {u : TileID} :
    requestFlow target id t ≠ responseFlow target id' u := by
  intro h
  have hbundle := congrArg (fun x : CtrlFlow => x.source.port.bundle) h
  cases hbundle

theorem requestFlow_congr {id id' : ℕ} (h : BitVec.ofNat 8 id = BitVec.ofNat 8 id') :
    requestFlow target id t = requestFlow target id' t := by
  unfold requestFlow
  rw [h]

theorem responseFlow_congr {id id' : ℕ} (h : BitVec.ofNat 8 id = BitVec.ofNat 8 id') :
    responseFlow target id t = responseFlow target id' t := by
  unfold responseFlow
  rw [h]

/-- When the standalone overlay of some devices has the shape of one of them: the controller ids
agree wherever they are used, no response is due from a tile that only applying the overlay
creates, and the device has no other control flows or allocations of its own. -/
structure Serves (opts : Options) (target : TargetModel) (tokenTiles : List TileID)
    (devices : List (Device δ)) (d : Device δ) : Prop where
  requestIds : Requests opts target → ∀ t ∈ coords d.tiles,
    BitVec.ofNat 8 (firstID target d.tiles t) =
      BitVec.ofNat 8 (firstID target (devices.flatMap Device.tiles) t)
  responseIds : ∀ t ∈ coords d.tiles, Responds opts target tokenTiles t →
    BitVec.ofNat 8 (respID target opts d.tiles t) =
      BitVec.ofNat 8 (firstID target (devices.flatMap Device.tiles) t)
  responses : ∀ t ∈ Cover opts (coords (devices.flatMap Device.tiles)),
    t ∉ RespDom opts (coords (devices.flatMap Device.tiles)) →
      Responds opts target tokenTiles t →
        responseFlow target (firstID target (devices.flatMap Device.tiles) t) t ∈ d.ctrlFlows
  flows : d.ctrlFlows ⊆ overlayFlows opts target tokenTiles devices
  allocations : d.ctrlAllocations ⊆ overlayAllocations opts target devices
  names : ∀ a ∈ overlayAllocations opts target devices, a.symName ∈ d.names →
    a ∈ d.ctrlAllocations

theorem flows_eq_iff (hd : d ∈ devices)
    (hrun : applyOverlayToDevice opts target tokenTiles (shared devices d) = .ok d')
    (hflows : d.ctrlFlows ⊆ overlayFlows opts target tokenTiles devices) :
    d'.ctrlFlows = overlayFlows opts target tokenTiles devices ↔
      (Requests opts target → ∀ t ∈ coords d.tiles,
        BitVec.ofNat 8 (firstID target d.tiles t) =
          BitVec.ofNat 8 (firstID target (devices.flatMap Device.tiles) t)) ∧
      (∀ t ∈ coords d.tiles, Responds opts target tokenTiles t →
        BitVec.ofNat 8 (respID target opts d.tiles t) =
          BitVec.ofNat 8 (firstID target (devices.flatMap Device.tiles) t)) ∧
      ∀ t ∈ Cover opts (coords (devices.flatMap Device.tiles)),
        t ∉ RespDom opts (coords (devices.flatMap Device.tiles)) →
          Responds opts target tokenTiles t →
            responseFlow target (firstID target (devices.flatMap Device.tiles) t) t ∈
              d.ctrlFlows := by
  have hmem := applyOverlayToDevice_flows hrun
  rw [coords_shared hd] at hmem
  have hU : ∀ t ∈ coords d.tiles, t ∈ coords (devices.flatMap Device.tiles) := by
    rintro t ⟨op, hop, rfl⟩
    exact ⟨op, List.mem_flatMap.2 ⟨d, hd, hop⟩, rfl⟩
  constructor
  · intro heq
    refine ⟨fun hreq t ht => ?_, fun t ht hresp => ?_, fun t ht hnot hresp => ?_⟩
    · have hx := (hmem _).2 (.inr (.inr ⟨hreq, t, subset_cover (hU t ht), rfl⟩))
      rw [heq, firstID_shared_of_mem ht] at hx
      rcases hx with ⟨u, _, _, hx⟩ | ⟨_, u, _, hx⟩
      · exact absurd hx requestFlow_ne
      · obtain ⟨rfl, hid⟩ := requestFlow_inj hx
        exact hid
    · have hx := (hmem _).2 (.inr (.inl ⟨t, .inl (hU t ht), hresp, rfl⟩))
      rw [heq, respID_shared_of_mem ht] at hx
      rcases hx with ⟨u, _, _, hx⟩ | ⟨_, u, _, hx⟩
      · obtain ⟨rfl, hid⟩ := responseFlow_inj hx
        exact hid
      · exact absurd hx.symm requestFlow_ne
    · have hx : responseFlow target (firstID target (devices.flatMap Device.tiles) t) t ∈
          d'.ctrlFlows := by
        rw [heq]
        exact .inl ⟨t, ht, hresp, rfl⟩
      rcases (hmem _).1 hx with hx | ⟨u, hu, _, hx⟩ | ⟨_, u, _, hx⟩
      · exact hx
      · obtain ⟨rfl, _⟩ := responseFlow_inj hx
        exact absurd hu hnot
      · exact absurd hx.symm requestFlow_ne
  · rintro ⟨hreqIds, hrespIds, hresps⟩
    have hreqID : Requests opts target → ∀ t,
        requestFlow target (firstID target (shared devices d).tiles t) t =
          requestFlow target (firstID target (devices.flatMap Device.tiles) t) t := by
      intro hreq t
      by_cases ht : t ∈ coords d.tiles
      · rw [firstID_shared_of_mem ht]
        exact requestFlow_congr (hreqIds hreq t ht)
      · rw [firstID_shared_of_not_mem ht]
    have hrespID : ∀ t, Responds opts target tokenTiles t →
        responseFlow target (respID target opts (shared devices d).tiles t) t =
          responseFlow target (firstID target (devices.flatMap Device.tiles) t) t := by
      intro t hresp
      by_cases ht : t ∈ coords d.tiles
      · rw [respID_shared_of_mem ht]
        exact responseFlow_congr (hrespIds t ht hresp)
      · rw [respID_shared_of_not_mem ht]
    ext x
    rw [hmem]
    constructor
    · rintro (hx | ⟨t, ht, hresp, rfl⟩ | ⟨hreq, t, ht, rfl⟩)
      · exact hflows hx
      · exact .inl ⟨t, respDom_subset_cover ht, hresp, hrespID t hresp⟩
      · exact .inr ⟨hreq, t, ht, hreqID hreq t⟩
    · rintro (⟨t, ht, hresp, rfl⟩ | ⟨hreq, t, ht, rfl⟩)
      · by_cases hdom : t ∈ RespDom opts (coords (devices.flatMap Device.tiles))
        · exact .inr (.inl ⟨t, hdom, hresp, (hrespID t hresp).symm⟩)
        · exact .inl (hresps t ht hdom hresp)
      · exact .inr (.inr ⟨hreq, t, ht, (hreqID hreq t).symm⟩)

theorem allocations_eq_iff (hd : d ∈ devices)
    (hrun : applyOverlayToDevice opts target tokenTiles (shared devices d) = .ok d') :
    d'.ctrlAllocations = overlayAllocations opts target devices ↔
      d.ctrlAllocations ⊆ overlayAllocations opts target devices ∧
      ∀ a ∈ overlayAllocations opts target devices, a.symName ∈ d.names →
        a ∈ d.ctrlAllocations := by
  have hmem : ∀ a, a ∈ d'.ctrlAllocations ↔ a ∈ d.ctrlAllocations ∨
      a ∈ overlayAllocations opts target devices ∧ a.symName ∉ d.names := by
    intro a
    rw [applyOverlayToDevice_allocations hrun, coords_shared hd]
    rfl
  constructor
  · intro heq
    refine ⟨fun a ha => heq ▸ (hmem a).2 (.inl ha), fun a ha hname => ?_⟩
    rw [← heq, hmem] at ha
    exact ha.resolve_right fun hand => hand.2 hname
  · rintro ⟨hsub, hnames⟩
    ext a
    rw [hmem]
    constructor
    · rintro (ha | ⟨ha, _⟩)
      · exact hsub ha
      · exact ha
    · intro ha
      by_cases hname : a.symName ∈ d.names
      · exact .inl (hnames a ha hname)
      · exact .inr ⟨ha, hname⟩

/-- **The shape of a device with the overlay is the one of the standalone overlay exactly where the
overlay serves it.** -/
theorem shape_eq_iff (hd : d ∈ devices)
    (hrun : applyOverlayToDevice opts target tokenTiles (shared devices d) = .ok d') :
    d'.ctrlFlows = overlayFlows opts target tokenTiles devices ∧
        d'.ctrlAllocations = overlayAllocations opts target devices ↔
      Serves opts target tokenTiles devices d := by
  have hflows : d'.ctrlFlows = overlayFlows opts target tokenTiles devices →
      d.ctrlFlows ⊆ overlayFlows opts target tokenTiles devices := fun heq x hx =>
    heq ▸ (applyOverlayToDevice_flows hrun x).2 (.inl hx)
  constructor
  · rintro ⟨hf, ha⟩
    obtain ⟨hreq, hresp, hcreated⟩ := (flows_eq_iff hd hrun (hflows hf)).1 hf
    obtain ⟨hsub, hnames⟩ := (allocations_eq_iff hd hrun).1 ha
    exact ⟨hreq, hresp, hcreated, hflows hf, hsub, hnames⟩
  · intro h
    exact ⟨(flows_eq_iff hd hrun h.flows).2 ⟨h.requestIds, h.responseIds, h.responses⟩,
      (allocations_eq_iff hd hrun).2 ⟨h.allocations, h.names⟩⟩

end MlirAie.CtrlOverlay
