import MlirAie.CtrlOverlay.Cover
import MlirAie.Lib.Text

/-!
# The flows and allocations of a device

* `Device.ctrlFlows`, `Device.ctrlAllocations`: the control packet flows and the control shim DMA
  allocations of a device;
* `Applied`: a device once flows and allocations of the overlay were added to it;
* **`generateResponses`**, **`generateRequests`**: what the flows of one column add.
-/

namespace MlirAie.CtrlOverlay

open Route Lib

/-- A control packet flow: its ID and both ends. -/
structure CtrlFlow where
  id : BitVec 8
  source : Endpoint
  dest : Endpoint

variable {δ : Type}

@[grind =] def flowsOf (flows : List PacketFlowOp) : Set CtrlFlow :=
  {x | ∃ f ∈ flows, f.keepPktHeader = some true ∧ f.priorityRoute = some true ∧ f.id = x.id ∧
    x.source ∈ f.sources ∧ x.dest ∈ f.dests}

def Device.ctrlFlows (d : Device δ) : Set CtrlFlow := flowsOf d.packetFlows

def Device.ctrlAllocations (d : Device δ) : Set ShimDMAAllocation :=
  {a | .allocation a ∈ d.symbols ∧
    ∃ col isShimMM2S chan, a.symName = getCtrlPktAllocName col isShimMM2S chan}

def Device.names (d : Device δ) : Set String := {n | ∃ s ∈ d.symbols, s.symName = n}

section

variable (target : TargetModel)

def responseFlow (id : ℕ) (t : TileID) : CtrlFlow where
  id := BitVec.ofNat 8 id
  source := ⟨some t, ⟨.TileControl, 0⟩⟩
  dest := ⟨some ⟨t.col, 0⟩, ⟨.South, target.rowToShimChan .South t.row⟩⟩

def requestFlow (id : ℕ) (t : TileID) : CtrlFlow where
  id := BitVec.ofNat 8 id
  source := ⟨some ⟨t.col, 0⟩, ⟨.DMA, target.rowToShimChan .DMA t.row⟩⟩
  dest := ⟨some t, ⟨.TileControl, 0⟩⟩

def requestAllocation (t : TileID) : ShimDMAAllocation :=
  ctrlAllocation target ⟨t.col, 0⟩ .DMA true t

end

/-! ## Declaring flows -/

theorem flowsOf_cons (f : PacketFlowOp) (fs : List PacketFlowOp) :
    flowsOf (f :: fs) = flowsOf [f] ∪ flowsOf fs := by
  ext x
  simp [flowsOf]

def keyFlow (id : ℕ) (source dest : PhysPort) : CtrlFlow :=
  ⟨BitVec.ofNat 8 id, ⟨some source.tile, source.port⟩, ⟨some dest.tile, dest.port⟩⟩

theorem flowsOf_created (id : BitVec 8) (source dest : Endpoint) :
    flowsOf [⟨id, [source], [dest], some true, some true⟩] = {⟨id, source, dest⟩} := by
  ext x
  obtain ⟨i, s, t⟩ := x
  simp [flowsOf, eq_comm]

theorem eq_of_key {f : PacketFlowOp} {id : ℕ} {source dest : PhysPort}
    (h : f.key = some ⟨id, source, dest⟩) :
    f.id = BitVec.ofNat 8 id ∧ f.sources = [⟨some source.tile, source.port⟩] ∧
      f.dests = [⟨some dest.tile, dest.port⟩] := by
  obtain ⟨i, sources, dests, keep, priority⟩ := f
  unfold PacketFlowOp.key at h
  split at h
  next src dst hsrc hdst =>
    obtain ⟨s, hs, h⟩ := Option.bind_eq_some_iff.1 h
    obtain ⟨t, ht, h⟩ := Option.bind_eq_some_iff.1 h
    obtain ⟨_, _⟩ := src
    obtain ⟨_, _⟩ := dst
    have h := Option.some_injective _ h
    rw [CtrlFlowKey.mk.injEq] at h
    obtain ⟨hid, rfl, rfl⟩ := h
    refine ⟨?_, by rw [hsrc, ← hs], by rw [hdst, ← ht]⟩
    rw [← BitVec.ofInt_natCast, ← hid, BitVec.ofInt_toInt]
  next => cases h

/-- **Declaring a flow adds that flow to the control flows**, whether it is created or was
declared before. -/
theorem flowsOf_declareFlow (id : ℕ) (source dest : PhysPort) (fs : List PacketFlowOp) :
    flowsOf (declareFlow id source dest fs) = flowsOf fs ∪ {keyFlow id source dest} := by
  induction fs with
  | nil =>
    rw [declareFlow, flowsOf_created]
    simp [flowsOf, keyFlow]
  | cons f fs ih =>
    rw [declareFlow]
    by_cases h : f.key = some ⟨id, source, dest⟩
    · obtain ⟨hid, hs, hd⟩ := eq_of_key h
      have hf : flowsOf [{ f with keepPktHeader := some true, priorityRoute := some true }] =
          {keyFlow id source dest} := by
        rw [hid, hs, hd]
        exact flowsOf_created _ _ _
      have hsub : flowsOf [f] ⊆ {keyFlow id source dest} := by
        rw [← hf]
        rintro x ⟨g, hg, _, _, hgx⟩
        rw [List.mem_singleton] at hg
        subst hg
        exact ⟨_, List.mem_singleton_self _, rfl, rfl, hgx⟩
      rw [if_pos h, flowsOf_cons, hf, flowsOf_cons f]
      ext x
      constructor
      · rintro (hx | hx)
        · exact .inr hx
        · exact .inl (.inr hx)
      · rintro ((hx | hx) | hx)
        · exact .inl (hsub hx)
        · exact .inr hx
        · exact .inl hx
    · rw [if_neg h, flowsOf_cons, ih, flowsOf_cons f fs, Set.union_assoc]

/-! ## Names of allocations -/

theorem getCtrlPktAllocName_injective {col col' chan chan' : ℕ}
    (h : getCtrlPktAllocName col true chan = getCtrlPktAllocName col' true chan') :
    col = col' ∧ chan = chan' := by
  simp only [getCtrlPktAllocName, if_pos, String.append_assoc, String.append_right_inj] at h
  obtain ⟨hcol, hchan⟩ := text_split "_mm2s" rfl (not_mem_toString_nat rfl col)
    (not_mem_toString_nat rfl col') h
  exact ⟨Nat.repr_injective hcol, Nat.repr_injective ((String.append_right_inj _).1 hchan)⟩

theorem requestAllocation_eq {target : TargetModel} {t u : TileID}
    (h : (requestAllocation target t).symName = (requestAllocation target u).symName) :
    requestAllocation target t = requestAllocation target u := by
  obtain ⟨hcol, hchan⟩ := getCtrlPktAllocName_injective h
  unfold requestAllocation ctrlAllocation
  simp only at hcol hchan ⊢
  rw [hcol, hchan]

/-! ## What the overlay adds to a device -/

/-- A device once flows and allocations of the overlay were added to it. -/
structure Applied (target : TargetModel) (d₀ d : Device δ) (F : Set CtrlFlow)
    (A : Set ShimDMAAllocation) : Prop where
  flows : d.ctrlFlows = d₀.ctrlFlows ∪ F
  allocations : d.ctrlAllocations = d₀.ctrlAllocations ∪ {a ∈ A | a.symName ∉ d₀.names}
  names : d.names = d₀.names ∪ {n | ∃ a ∈ A, a.symName = n}
  requests : ∀ a ∈ A, ∃ t, a = requestAllocation target t
  device : d.device = d₀.device

variable {target : TargetModel} {d₀ d d' : Device δ} {F : Set CtrlFlow}
  {A : Set ShimDMAAllocation}

theorem Applied.refl (target : TargetModel) (d : Device δ) : Applied target d d ∅ ∅ where
  flows := by rw [Set.union_empty]
  allocations := by simp
  names := by simp
  requests := fun _ h => h.elim
  device := rfl

theorem Applied.congr {F' : Set CtrlFlow} {A' : Set ShimDMAAllocation}
    (h : Applied target d₀ d F A) (hF : F = F') (hA : A = A') : Applied target d₀ d F' A' := by
  rw [← hF, ← hA]
  exact h

theorem Applied.addFlow (h : Applied target d₀ d F A) (id : ℕ) (source dest : PhysPort) :
    Applied target d₀ { d with packetFlows := declareFlow id source dest d.packetFlows }
      (F ∪ {keyFlow id source dest}) A := by
  refine ⟨?_, h.allocations, h.names, h.requests, h.device⟩
  show flowsOf (declareFlow id source dest d.packetFlows) = _
  rw [flowsOf_declareFlow, ← Set.union_assoc]
  exact congrArg (· ∪ _) h.flows

theorem lookupSymbol_isSome {name : String} :
    (d.lookupSymbol name).isSome ↔ name ∈ d.names := by
  unfold Device.lookupSymbol Device.names
  rw [List.find?_isSome]
  simp

theorem addAllocation_names (a : ShimDMAAllocation) :
    ({ d with symbols := d.symbols ++ [.allocation a] } : Device δ).names =
      d.names ∪ {a.symName} := by
  ext n
  constructor
  · rintro ⟨s, hs, rfl⟩
    rcases List.mem_append.1 hs with hs | hs
    · exact .inl ⟨s, hs, rfl⟩
    · rw [List.mem_singleton.1 hs]
      exact .inr rfl
  · rintro (⟨s, hs, rfl⟩ | rfl)
    · exact ⟨s, List.mem_append_left _ hs, rfl⟩
    · exact ⟨.allocation a, List.mem_append_right _ (List.mem_singleton_self _), rfl⟩

theorem addAllocation_ctrlAllocations (t : TileID) :
    ({ d with symbols := d.symbols ++ [.allocation (requestAllocation target t)] } :
      Device δ).ctrlAllocations = d.ctrlAllocations ∪ {requestAllocation target t} := by
  ext a
  simp only [Device.ctrlAllocations, List.mem_append, List.mem_singleton, Set.mem_ofPred_eq,
    Symbol.allocation.injEq, Set.mem_union, Set.mem_singleton_iff, or_and_right]
  refine or_congr_right (and_iff_left_of_imp ?_)
  rintro rfl
  exact ⟨t.col, true, _, rfl⟩

theorem Applied.addAllocation (h : Applied target d₀ d F A) (t : TileID) :
    Applied target d₀
      (if (d.lookupSymbol (requestAllocation target t).symName).isSome then d
        else { d with symbols := d.symbols ++ [.allocation (requestAllocation target t)] })
      F (A ∪ {requestAllocation target t}) := by
  have hrequests : ∀ a ∈ A ∪ {requestAllocation target t}, ∃ u, a = requestAllocation target u := by
    rintro a (ha | rfl)
    · exact h.requests a ha
    · exact ⟨t, rfl⟩
  have hmem : (requestAllocation target t).symName ∈ d.names ↔
      (requestAllocation target t).symName ∈ d₀.names ∨ requestAllocation target t ∈ A := by
    rw [h.names]
    refine or_congr_right ⟨?_, fun ha => ⟨_, ha, rfl⟩⟩
    rintro ⟨a, ha, hname⟩
    obtain ⟨u, rfl⟩ := h.requests a ha
    rwa [← requestAllocation_eq hname]
  by_cases hname : (d.lookupSymbol (requestAllocation target t).symName).isSome
  · rw [if_pos hname]
    rw [lookupSymbol_isSome, hmem] at hname
    refine ⟨h.flows, ?_, ?_, hrequests, h.device⟩
    · rw [h.allocations]
      congr 1
      ext a
      constructor
      · rintro ⟨ha, hn⟩
        exact ⟨.inl ha, hn⟩
      · rintro ⟨ha | rfl, hn⟩
        · exact ⟨ha, hn⟩
        · exact ⟨hname.resolve_left hn, hn⟩
    · rw [h.names]
      ext n
      constructor
      · rintro (hn | ⟨a, ha, rfl⟩)
        · exact .inl hn
        · exact .inr ⟨a, .inl ha, rfl⟩
      · rintro (hn | ⟨a, ha | rfl, rfl⟩)
        · exact .inl hn
        · exact .inr ⟨a, ha, rfl⟩
        · exact hname.imp id fun ha => ⟨_, ha, rfl⟩
  · rw [if_neg hname]
    rw [lookupSymbol_isSome, hmem, not_or] at hname
    refine ⟨h.flows, ?_, ?_, hrequests, h.device⟩
    · rw [addAllocation_ctrlAllocations, h.allocations, Set.union_assoc]
      congr 1
      ext a
      constructor
      · rintro (⟨ha, hn⟩ | rfl)
        · exact ⟨.inl ha, hn⟩
        · exact ⟨.inr rfl, hname.1⟩
      · rintro ⟨ha | rfl, hn⟩
        · exact .inl ⟨ha, hn⟩
        · exact .inr rfl
    · rw [addAllocation_names, h.names, Set.union_assoc]
      congr 1
      ext n
      constructor
      · rintro (⟨a, ha, rfl⟩ | rfl)
        · exact ⟨a, .inl ha, rfl⟩
        · exact ⟨_, .inr rfl, rfl⟩
      · rintro ⟨a, ha | rfl, rfl⟩
        · exact .inl ⟨a, ha, rfl⟩
        · exact .inr rfl

/-! ## The flows of one column -/

/-- What the tiles of a column have in flows. -/
@[grind =] def flowSet (flow : ℕ → TileID → CtrlFlow) (target : TargetModel) (tiles : List TileOp) :
    Set CtrlFlow := {x | ∃ op ∈ tiles, x = flow (controllerID target op) op.tileID}

theorem flowSet_cons (flow : ℕ → TileID → CtrlFlow) (op : TileOp) (tiles : List TileOp) :
    flowSet flow target (op :: tiles) =
      {flow (controllerID target op) op.tileID} ∪ flowSet flow target tiles := by
  ext x
  simp [flowSet]

theorem generateResponse {col : ℕ} {chans : List ℕ} {op : TileOp} (hcol : op.tileID.col = col)
    (h : Applied target d₀ d F A)
    (hgen : generatePacketFlow target ⟨col, 0⟩ .South ⟨.TileControl, 0⟩ false chans d op =
      .ok d') :
    Applied target d₀ d' (F ∪ {responseFlow target (controllerID target op) op.tileID}) A ∧
      d'.tiles = d.tiles := by
  unfold generatePacketFlow at hgen
  simp only at hgen
  by_cases hchan : (!chans.contains (target.rowToShimChan .South op.tileID.row)) = true
  · rw [if_pos hchan] at hgen
    cases hgen
  · rw [if_neg hchan, if_pos (by decide), if_neg Bool.false_ne_true] at hgen
    cases hgen
    subst hcol
    exact ⟨h.addFlow _ _ _, rfl⟩

theorem generateRequest {col : ℕ} {chans : List ℕ} {op : TileOp} (hcol : op.tileID.col = col)
    (h : Applied target d₀ d F A)
    (hgen : generatePacketFlow target ⟨col, 0⟩ .DMA ⟨.TileControl, 0⟩ true chans d op =
      .ok d') :
    Applied target d₀ d' (F ∪ {requestFlow target (controllerID target op) op.tileID})
        (A ∪ {requestAllocation target op.tileID}) ∧
      d'.tiles = d.tiles := by
  unfold generatePacketFlow at hgen
  simp only at hgen
  by_cases hchan : (!chans.contains (target.rowToShimChan .DMA op.tileID.row)) = true
  · rw [if_pos hchan] at hgen
    cases hgen
  · rw [if_neg hchan, if_neg (by decide)] at hgen
    simp only [↓reduceIte] at hgen
    subst hcol
    have hadd := (h.addFlow (controllerID target op)
      ⟨⟨op.tileID.col, 0⟩, ⟨.DMA, target.rowToShimChan .DMA op.tileID.row⟩⟩
      ⟨op.tileID, ⟨.TileControl, 0⟩⟩).addAllocation op.tileID
    unfold requestAllocation at hadd
    split at hgen
    next hl =>
      rw [if_pos hl] at hadd
      cases hgen
      exact ⟨hadd, rfl⟩
    next hl =>
      rw [if_neg hl] at hadd
      cases hgen
      exact ⟨hadd, rfl⟩

theorem generateResponses {shimTile : TileOp} {col : ℕ} (hshim : shimTile.tileID = ⟨col, 0⟩)
    {tiles : List TileOp} (hcol : ∀ op ∈ tiles, op.tileID.col = col)
    (h : Applied target d₀ d F A)
    (hgen : generatePacketFlowsForControl target shimTile .South tiles ⟨.TileControl, 0⟩ false d =
      .ok d') :
    Applied target d₀ d' (F ∪ flowSet (responseFlow target) target tiles) A ∧
      d'.tiles = d.tiles := by
  unfold generatePacketFlowsForControl at hgen
  rw [hshim] at hgen
  generalize getAvailableShimChans target shimTile .South false = chans at hgen
  induction tiles generalizing d F with
  | nil =>
    cases hgen
    exact ⟨h.congr (by simp [flowSet]) rfl, rfl⟩
  | cons op tiles ih =>
    rw [List.foldlM_cons] at hgen
    cases hop : generatePacketFlow target ⟨col, 0⟩ .South ⟨.TileControl, 0⟩ false chans d op with
    | error e =>
      rw [hop] at hgen
      cases hgen
    | ok d₁ =>
      rw [hop] at hgen
      obtain ⟨h₁, ht₁⟩ := generateResponse (hcol op List.mem_cons_self) h hop
      obtain ⟨h₂, ht₂⟩ := ih (fun op' hop' => hcol op' (List.mem_cons_of_mem op hop')) h₁ hgen
      refine ⟨h₂.congr ?_ rfl, ht₂.trans ht₁⟩
      rw [flowSet_cons, Set.union_assoc]

theorem generateRequests {shimTile : TileOp} {col : ℕ} (hshim : shimTile.tileID = ⟨col, 0⟩)
    {tiles : List TileOp} (hcol : ∀ op ∈ tiles, op.tileID.col = col)
    (h : Applied target d₀ d F A)
    (hgen : generatePacketFlowsForControl target shimTile .DMA tiles ⟨.TileControl, 0⟩ true d =
      .ok d') :
    Applied target d₀ d' (F ∪ flowSet (requestFlow target) target tiles)
        (A ∪ {a | ∃ op ∈ tiles, a = requestAllocation target op.tileID}) ∧
      d'.tiles = d.tiles := by
  unfold generatePacketFlowsForControl at hgen
  rw [hshim] at hgen
  generalize getAvailableShimChans target shimTile .DMA true = chans at hgen
  induction tiles generalizing d F A with
  | nil =>
    cases hgen
    exact ⟨h.congr (by simp [flowSet]) (by simp), rfl⟩
  | cons op tiles ih =>
    rw [List.foldlM_cons] at hgen
    cases hop : generatePacketFlow target ⟨col, 0⟩ .DMA ⟨.TileControl, 0⟩ true chans d op with
    | error e =>
      rw [hop] at hgen
      cases hgen
    | ok d₁ =>
      rw [hop] at hgen
      obtain ⟨h₁, ht₁⟩ := generateRequest (hcol op List.mem_cons_self) h hop
      obtain ⟨h₂, ht₂⟩ := ih (fun op' hop' => hcol op' (List.mem_cons_of_mem op hop')) h₁ hgen
      refine ⟨h₂.congr ?_ ?_, ht₂.trans ht₁⟩
      · rw [flowSet_cons, Set.union_assoc]
      · rw [Set.union_assoc]
        congr 1
        ext a
        simp

end MlirAie.CtrlOverlay
