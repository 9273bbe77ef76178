import MlirAie.CtrlOverlay.Shared
import MlirAie.Lib.Lists

/-!
# The standalone overlay and the devices it serves

* `overlay_flows`, `overlay_allocations`: what the emitted device has;
* **`standalone_overlay_exact`**: when it has the shape of every participating device.
-/

namespace MlirAie.CtrlOverlay

open Route Lib

variable {δ : Type} {opts : Options} {target : TargetModel} {tokenTiles : List TileID}
  {t : TileID} {devices devices' : List (Device δ)}

def Applies (opts : Options) (target : TargetModel) (tokenTiles : List TileID)
    (devices : List (Device δ)) (d d' : Device δ) : Prop :=
  ∃ r, applyOverlayToDevice opts target tokenTiles (shared devices d) = .ok r ∧
    d' = { r with hasCtrlPktOverlay := some true }

theorem tokenTiles_shared :
    collectTokenIssuingTiles (devices.map (shared devices')) = collectTokenIssuingTiles devices := by
  unfold collectTokenIssuingTiles
  rw [List.flatMap_map]
  rfl

/-- The tiles of devices that all have the same coordinates are found as in the first. -/
theorem find_same (target : TargetModel) {C : Set TileID} {d : Device δ} (h : ∀ d' ∈ d :: devices, coords d'.tiles = C) :
    coords ((d :: devices).flatMap Device.tiles) = C ∧
      ∀ t, firstID target ((d :: devices).flatMap Device.tiles) t = firstID target d.tiles t := by
  have hd := h d List.mem_cons_self
  have hrest : coords (devices.flatMap Device.tiles) ⊆ C := by
    rintro t ⟨op, hop, rfl⟩
    obtain ⟨d', hd', hop⟩ := List.mem_flatMap.1 hop
    rw [← h d' (List.mem_cons_of_mem d hd')]
    exact ⟨op, hop, rfl⟩
  rw [List.flatMap_cons]
  refine ⟨?_, fun t => ?_⟩
  · rw [coords_append, hd, Set.union_eq_left.2 hrest]
  · by_cases ht : t ∈ coords d.tiles
    · rw [firstID_append_left ht]
    · rw [firstID_append_right ht]
      have hnot : t ∉ coords (devices.flatMap Device.tiles) := fun hmem => ht (hd ▸ hrest hmem)
      unfold firstID
      rw [find_eq_none ht, find_eq_none hnot]

/-- The tiles of the participating devices once the overlay is applied, and their ids. -/
theorem find_applied (htarget : target.isAIE1 = false) (hne : devices ≠ [])
    (h : List.Forall₂ (Applies opts target tokenTiles devices) devices devices') :
    coords (devices'.flatMap Device.tiles) =
        Cover opts (coords (devices.flatMap Device.tiles)) ∧
      ∀ t, firstID target (devices'.flatMap Device.tiles) t =
        firstID target (devices.flatMap Device.tiles) t := by
  have hcoords : ∀ d' ∈ devices', coords d'.tiles =
      Cover opts (coords (devices.flatMap Device.tiles)) := by
    intro d' hd'
    obtain ⟨i, hi, rfl⟩ := List.getElem_of_mem hd'
    have hlen := h.length_eq
    obtain ⟨r, hr, heq⟩ := h.get (hlen ▸ hi) hi
    have hmem : devices[i] ∈ devices := List.getElem_mem _
    have hoverlaid := applyOverlayToDevice_overlaid htarget hr
    rw [List.get_eq_getElem] at heq
    rw [heq]
    show coords r.tiles = _
    rw [hoverlaid.tiles]
    congr 1
    exact coords_shared hmem
  cases h with
  | nil => exact absurd rfl hne
  | cons hfirst hrest =>
    rename_i d d' ds ds'
    obtain ⟨hC, hids⟩ := find_same target hcoords
    refine ⟨hC, fun t => ?_⟩
    obtain ⟨r, hr, rfl⟩ := hfirst
    rw [hids]
    show firstID target r.tiles t = _
    rw [(applyOverlayToDevice_overlaid htarget hr).ids]
    by_cases ht : t ∈ coords d.tiles
    · rw [firstID_shared_of_mem ht, List.flatMap_cons, firstID_append_left ht]
    · rw [firstID_shared_of_not_mem ht]

/-! ## The emitted device -/

/-- The standalone overlay before the overlay is applied to it: the union of the tiles. -/
def overlayTiles (devices : List (Device δ)) (dev : δ) : Device δ :=
  Device.cloneMissingTiles { symName := "ctrl_pkt_overlay", device := dev }
    (collectTileUnion devices)

theorem overlayTiles_tiles (dev : δ) :
    (overlayTiles devices dev).tiles = (collectTileUnion devices).map TileOp.clone := by
  unfold overlayTiles Device.cloneMissingTiles
  simp

theorem coords_overlayTiles (dev : δ) :
    coords (overlayTiles devices dev).tiles = coords (devices.flatMap Device.tiles) := by
  rw [overlayTiles_tiles, coords_map_clone, coords_collectTileUnion]

theorem firstID_overlayTiles (dev : δ) :
    firstID target (overlayTiles devices dev).tiles t =
      firstID target (devices.flatMap Device.tiles) t := by
  rw [overlayTiles_tiles, firstID_map_clone, firstID_collectTileUnion]

theorem respID_overlayTiles (dev : δ) :
    respID target opts (overlayTiles devices dev).tiles t =
      firstID target (devices.flatMap Device.tiles) t := by
  have hnodup : ((overlayTiles devices dev).tiles.map TileOp.tileID).Nodup := by
    rw [overlayTiles_tiles, List.map_map]
    exact nodup_collectTileUnion
  unfold respID
  rw [lastID_eq, firstID_reverse hnodup, ite_self, firstID_overlayTiles]

variable {dev : δ} {overlay : Device δ}

/-- **The control flows of the standalone overlay.** -/
theorem overlay_flows (hne : devices ≠ [])
    (h : List.Forall₂ (Applies opts target tokenTiles devices) devices devices')
    (hrun : applyOverlayToDevice opts target tokenTiles (overlayTiles devices' dev) =
      .ok overlay) :
    overlay.ctrlFlows = overlayFlows opts target tokenTiles devices := by
  have hnone : ∀ x, x ∉ (overlayTiles devices' dev).ctrlFlows := by
    rintro x ⟨f, hf, _⟩
    cases hf
  ext x
  rw [applyOverlayToDevice_flows hrun, or_iff_right (hnone x)]
  cases htarget : target.isAIE1 with
  | true =>
    have hresp : ∀ t, ¬Responds opts target tokenTiles t := fun t hand => by
      rw [Responds, htarget] at hand
      cases hand.1
    have hreq : ¬Requests opts target := fun hand => by
      rw [Requests, htarget] at hand
      cases hand.1
    simp [overlayFlows, hresp, hreq]
  | false =>
    obtain ⟨hcoords, hids⟩ := find_applied htarget hne h
    rw [coords_overlayTiles, hcoords, respDom_cover, cover_cover]
    simp only [respID_overlayTiles, firstID_overlayTiles, hids]
    rfl

/-- **The control allocations of the standalone overlay.** -/
theorem overlay_allocations (hne : devices ≠ [])
    (h : List.Forall₂ (Applies opts target tokenTiles devices) devices devices')
    (hrun : applyOverlayToDevice opts target tokenTiles (overlayTiles devices' dev) =
      .ok overlay) :
    overlay.ctrlAllocations = overlayAllocations opts target devices := by
  have hnone : ∀ a, a ∉ (overlayTiles devices' dev).ctrlAllocations := by
    rintro a ⟨ha, _⟩
    cases ha
  have hnames : ∀ n, n ∉ (overlayTiles devices' dev).names := by
    rintro n ⟨s, hs, _⟩
    cases hs
  ext a
  rw [applyOverlayToDevice_allocations hrun, or_iff_right (hnone a), and_iff_left (hnames _)]
  cases htarget : target.isAIE1 with
  | true =>
    have hreq : ¬Requests opts target := fun hand => by
      rw [Requests, htarget] at hand
      cases hand.1
    simp [overlayAllocations, hreq]
  | false =>
    rw [coords_overlayTiles, (find_applied htarget hne h).1, cover_cover]
    rfl

/-! ## The module -/

variable [DecidableEq δ] (getTargetModel : δ → TargetModel) (m : Module δ)

def Module.participating : List (Device δ) := m.devices.filter Device.participates

omit [DecidableEq δ] in
theorem mapM_applies {devs devs' : List (Device δ)} (hemit : opts.emitStandaloneOverlay = true)
    (h : (devs.map (shared devices)).mapM (applyToParticipating getTargetModel opts tokenTiles) =
      .ok devs') :
    List.Forall₂ (fun d d' => Applies opts (getTargetModel d.device) tokenTiles devices d d' ∧
      d'.device = d.device) devs devs' := by
  have h := mapM_ok h
  rw [List.forall₂_map_left_iff] at h
  refine h.imp fun d d' hd => ?_
  unfold applyToParticipating at hd
  rw [if_pos hemit] at hd
  cases hr : applyOverlayToDevice opts (getTargetModel d.device) tokenTiles (shared devices d) with
  | error e =>
    have hr' : applyOverlayToDevice opts (getTargetModel (shared devices d).device) tokenTiles
      (shared devices d) = .error e := hr
    simp only [bind, Except.bind, hr'] at hd
    cases hd
  | ok r =>
    have hr' : applyOverlayToDevice opts (getTargetModel (shared devices d).device) tokenTiles
      (shared devices d) = .ok r := hr
    simp only [bind, Except.bind, hr', hemit] at hd
    cases hd
    have hdevice : r.device = (shared devices d).device := applyOverlayToDevice_device hr
    exact ⟨⟨r, hr, rfl⟩, hdevice⟩

/-- What a successful run leaves: the participating devices with the overlay, and the standalone
overlay where there are any. -/
theorem runOnOperation_emits {r : Result δ} (hemit : opts.emitStandaloneOverlay = true)
    (hrun : runOnOperation getTargetModel opts m = .ok r) :
    List.Forall₂ (fun d d' => Applies opts (getTargetModel d.device)
        (collectTokenIssuingTiles m.participating) m.participating d d' ∧ d'.device = d.device)
      m.participating r.participating ∧
    createOverlayDevice getTargetModel opts m r.participating
      (collectTokenIssuingTiles m.participating) = .ok r.overlay := by
  unfold runOnOperation at hrun
  simp only [hemit, if_true] at hrun
  have htokens : collectTokenIssuingTiles (shareTilesAcrossDevices m.participating) =
      collectTokenIssuingTiles m.participating := tokenTiles_shared
  cases happly : (shareTilesAcrossDevices m.participating).mapM (applyToParticipating getTargetModel
      opts (collectTokenIssuingTiles (shareTilesAcrossDevices m.participating))) with
  | error e =>
    have happly' := happly
    unfold Module.participating at happly'
    simp only [bind, Except.bind, happly'] at hrun
    cases hrun
  | ok devices' =>
    have happly' := happly
    unfold Module.participating at happly'
    simp only [bind, Except.bind, happly'] at hrun
    cases hoverlay : createOverlayDevice getTargetModel opts m devices'
        (collectTokenIssuingTiles (shareTilesAcrossDevices m.participating)) with
    | error e =>
      have hoverlay' := hoverlay
      unfold Module.participating at hoverlay'
      rw [hoverlay'] at hrun
      cases hrun
    | ok overlay =>
      have hoverlay' := hoverlay
      unfold Module.participating at hoverlay'
      rw [hoverlay'] at hrun
      cases hrun
      rw [htokens] at happly hoverlay
      exact ⟨mapM_applies getTargetModel hemit happly, hoverlay⟩

theorem createOverlayDevice_ok {d : Device δ} {ds overlay : List (Device δ)}
    (h : createOverlayDevice getTargetModel opts m (d :: ds) tokenTiles = .ok overlay) :
    (∀ e ∈ ds, e.device = d.device) ∧ ∃ r,
      applyOverlayToDevice opts (getTargetModel d.device) tokenTiles
        (overlayTiles (d :: ds) d.device) = .ok r ∧
      overlay = [{ r with hasCtrlPktOverlay := some true }] := by
  unfold createOverlayDevice at h
  by_cases hdevice : (ds.any fun e => e.device ≠ d.device) = true
  · simp only [if_pos hdevice] at h
    cases h
  · simp only [if_neg hdevice] at h
    have hall : ∀ e ∈ ds, e.device = d.device := fun e he => by
      by_contra hne
      exact hdevice (List.any_eq_true.2 ⟨e, he, by simpa using hne⟩)
    split at h
    next => cases h
    next =>
      cases hr : applyOverlayToDevice opts (getTargetModel d.device) tokenTiles
          (overlayTiles (d :: ds) d.device) with
      | error e =>
        unfold overlayTiles at hr
        simp only [bind, Except.bind, hr] at h
        cases h
      | ok r =>
        unfold overlayTiles at hr
        simp only [bind, Except.bind, hr] at h
        cases h
        exact ⟨hall, r, rfl, rfl⟩

theorem forall_iff_of_forall₂ {α β : Type} {l : List α} {l' : List β} {P : α → Prop}
    {Q : β → Prop} (h : List.Forall₂ (fun a b => Q b ↔ P a) l l') :
    (∀ b ∈ l', Q b) ↔ ∀ a ∈ l, P a := by
  induction h with
  | nil => simp
  | cons hab _ ih => rw [List.forall_mem_cons, List.forall_mem_cons, hab, ih]

/-- **The standalone overlay has the shape of every participating device exactly where it serves
them all.** -/
theorem standalone_overlay_exact {r : Result δ} (hemit : opts.emitStandaloneOverlay = true)
    (hrun : runOnOperation getTargetModel opts m = .ok r) :
    (∀ overlay ∈ r.overlay, ∀ d' ∈ r.participating,
      d'.ctrlFlows = overlay.ctrlFlows ∧ d'.ctrlAllocations = overlay.ctrlAllocations) ↔
    ∀ d ∈ m.participating, Serves opts (getTargetModel d.device)
      (collectTokenIssuingTiles m.participating) m.participating d := by
  obtain ⟨happlies, hcreate⟩ := runOnOperation_emits getTargetModel m hemit hrun
  generalize collectTokenIssuingTiles m.participating = tokenTiles at *
  cases hP : m.participating with
  | nil =>
    rw [hP, List.forall₂_nil_left_iff] at happlies
    simp [happlies]
  | cons d ds =>
    rw [← hP]
    have hne : m.participating ≠ [] := by simp [hP]
    cases hP' : r.participating with
    | nil =>
      rw [hP', List.forall₂_nil_right_iff] at happlies
      exact absurd happlies hne
    | cons d' ds' =>
      rw [hP'] at hcreate
      obtain ⟨hsame, overlay, hoverlay, heq⟩ := createOverlayDevice_ok getTargetModel m hcreate
      rw [← hP'] at hoverlay ⊢
      -- the devices have one target
      have htarget : ∀ e' ∈ r.participating, e'.device = d'.device := by
        rw [hP']
        exact List.forall_mem_cons.mpr ⟨rfl, hsame⟩
      have happly : List.Forall₂ (fun e e' => getTargetModel e.device = getTargetModel d'.device ∧
          Applies opts (getTargetModel d'.device) tokenTiles m.participating e e')
          m.participating r.participating := by
        refine List.forall₂_iff_get.mpr ⟨happlies.length_eq, fun i hi hi' => ?_⟩
        obtain ⟨happ, hdev⟩ := happlies.get hi hi'
        have htargets : getTargetModel (m.participating.get ⟨i, hi⟩).device =
            getTargetModel d'.device := by
          rw [← hdev, htarget _ (List.get_mem _ _)]
        rw [htargets] at happ
        exact ⟨htargets, happ⟩
      have hflows := overlay_flows hne (happly.imp fun _ _ h => h.2) hoverlay
      have hallocs := overlay_allocations hne (happly.imp fun _ _ h => h.2) hoverlay
      rw [heq, List.forall_mem_singleton]
      refine forall_iff_of_forall₂ ?_
      refine List.forall₂_iff_get.mpr ⟨happly.length_eq, fun i hi hi' => ?_⟩
      obtain ⟨htargets, s, hs, hd'⟩ := happly.get hi hi'
      rw [htargets, ← shape_eq_iff (List.get_mem _ _) hs, hd', ← hflows, ← hallocs]
      rfl

/-! ## A device without shim tile -/

/-- A target of six rows, with a shim, a memory tile and four cores per column. -/
def sixRows : TargetModel where
  isAIE1 := false
  columns := 4
  rows := 6
  tileType t := if t.row = 0 then .ShimNOCTile else if t.row = 1 then .MemTile else .CoreTile
  numSourceShimMuxConnections t bundle :=
    if t.row = 0 then (if bundle = .DMA then 2 else if bundle = .South then 6 else 0) else 0
  numDestShimMuxConnections t bundle :=
    if t.row = 0 then (if bundle = .DMA then 2 else if bundle = .South then 8 else 0) else 0

def deviceOf (tiles : List TileID) : Device Unit where
  symName := "main"
  device := ()
  tiles := tiles.map fun t => { tileID := t }

def standalone : Options where
  emitStandaloneOverlay := true

def shimResponse : PacketFlowOp :=
  ⟨15, [⟨some ⟨0, 0⟩, ⟨.TileControl, 0⟩⟩], [⟨some ⟨0, 0⟩, ⟨.South, 0⟩⟩], some true, some true⟩

/-- A device that declares its core only: the overlay responds from the shim tile that applying the
overlay created, the device does not. -/
theorem standalone_overlay_differs :
    ∃ r overlay d', runOnOperation (fun _ => sixRows) standalone ⟨[deviceOf [⟨0, 2⟩]], []⟩ = .ok r ∧
      overlay ∈ r.overlay ∧ d' ∈ r.participating ∧ d'.ctrlFlows ≠ overlay.ctrlFlows := by
  refine ⟨⟨[{ deviceOf [⟨0, 0⟩, ⟨0, 2⟩] with hasCtrlPktOverlay := some true }], [],
      [{ deviceOf [⟨0, 0⟩, ⟨0, 2⟩] with
        symName := "ctrl_pkt_overlay"
        hasCtrlPktOverlay := some true
        packetFlows := [shimResponse] }]⟩, _, _, rfl, List.mem_cons_self, List.mem_cons_self,
    fun heq => ?_⟩
  have hmem : responseFlow sixRows 15 ⟨0, 0⟩ ∈ flowsOf [shimResponse] :=
    ⟨shimResponse, List.mem_cons_self, rfl, rfl, rfl, List.mem_cons_self, List.mem_cons_self⟩
  have hnone : flowsOf [] = flowsOf [shimResponse] := heq
  rw [← hnone] at hmem
  obtain ⟨f, hf, _⟩ := hmem
  cases hf

/-- A device that declares its shim tile is served. -/
theorem standalone_overlay_exact_declared :
    ∃ r, runOnOperation (fun _ => sixRows) standalone ⟨[deviceOf [⟨0, 0⟩, ⟨0, 2⟩]], []⟩ = .ok r ∧
      ∀ overlay ∈ r.overlay, ∀ d' ∈ r.participating,
        d'.ctrlFlows = overlay.ctrlFlows ∧ d'.ctrlAllocations = overlay.ctrlAllocations := by
  refine ⟨⟨[{ deviceOf [⟨0, 0⟩, ⟨0, 2⟩] with
      hasCtrlPktOverlay := some true
      packetFlows := [shimResponse] }], [],
    [{ deviceOf [⟨0, 0⟩, ⟨0, 2⟩] with
      symName := "ctrl_pkt_overlay"
      hasCtrlPktOverlay := some true
      packetFlows := [shimResponse] }]⟩, rfl,
    (standalone_overlay_exact (fun _ => sixRows) ⟨[deviceOf [⟨0, 0⟩, ⟨0, 2⟩]], []⟩
      (show standalone.emitStandaloneOverlay = true from rfl) rfl).mpr ?_⟩
  intro d hd
  obtain rfl : d = deviceOf [⟨0, 0⟩, ⟨0, 2⟩] := List.mem_singleton.mp hd
  refine ⟨fun hreq => ?_, ?_, ?_, ?_, ?_, ?_⟩
  · cases hreq.2
  · rintro t ⟨op, hop, rfl⟩ _
    rcases List.mem_pair.mp hop with rfl | rfl <;> rfl
  · rintro ⟨col, row⟩ ⟨⟨_, ⟨op, hop, rfl⟩, hcol⟩, hcases⟩ hnot
    rcases hcases with hmem | hrow | hreq
    · exact absurd (.inl hmem) hnot
    · have hcol : 0 = col := by rcases List.mem_pair.mp hop with rfl | rfl <;> exact hcol
      subst hcol
      cases hrow
      exact absurd (.inl ⟨{ tileID := ⟨0, 0⟩ }, List.mem_cons_self, rfl⟩) hnot
    · cases hreq.1
  · rintro x ⟨f, hf, _⟩
    cases hf
  · rintro a ⟨ha, _⟩
    cases ha
  · rintro a ⟨hreq, _⟩
    cases hreq.2

end MlirAie.CtrlOverlay
