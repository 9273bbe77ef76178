import MlirAie.Lib.Lists
import MlirAie.Overlay.Settings

/-!
# Control-packet reloads

A device is loaded by configuring the switchboxes of an overlay, then streaming the configuration
of the device over the routes the overlay set up, without what the overlay set already.

* `verifyReloadKeepsOverlay_eq_ok`: what the check of a reload accepts;
* `reload_unchanged`, `reload_full`: the settings during and after a reload;
* **`reload_completes`**: the same, of the calls made to the driver.
-/

namespace MlirAie.Overlay

open Route Lib

variable {skip : Bool}

/-! ## Devices -/

theorem device_sets (skip : Bool) (device : Device) :
    (device.calls skip).flatMap Call.sets =
      device.switchboxes.flatMap fun sb => (sb.calls skip).flatMap Call.sets := by
  rw [Device.calls, List.flatMap_assoc]

theorem device_mem_calls (device : Device) {w : SwitchPort Port × SettingValue Port} :
    w ∈ (device.calls skip).flatMap Call.sets ↔
      ∃ s ∈ device.settings, (skip && s.skipped) = false ∧ w = s.write := by
  rw [device_sets, List.mem_flatMap]
  constructor
  · rintro ⟨sb, hsb, hw⟩
    obtain ⟨s, hs, h⟩ := (mem_calls sb).1 hw
    exact ⟨s, List.mem_flatMap.2 ⟨sb, hsb, hs⟩, h⟩
  · rintro ⟨s, hs, h⟩
    obtain ⟨sb, hsb, hs⟩ := List.mem_flatMap.1 hs
    exact ⟨sb, hsb, (mem_calls sb).2 ⟨s, hs, h⟩⟩

theorem overlaySettings_eq (overlay : Device) (k : SwitchPort Port) :
    overlaySettings overlay k =
      (run (overlay.calls false) Store.reset k).map SettingValue.print := by
  have hmap : (overlay.settings.map fun s => (s.port, s.value.print)) =
      (overlay.settings.map PortSetting.write).map fun w => (w.1, w.2.print) := by
    rw [List.map_map]
    rfl
  rw [overlaySettings, writeAll_reset, run, writeAll_reset, hmap, lastWrite_map, device_sets,
    Device.settings, List.map_flatMap]
  congr 1
  exact (lastWrite_flatMap_congr fun sb _ => lastWrite_calls sb k).symm

/-- **What an accepted reload skips is set the same by its overlay, and what it writes is not set by
its overlay.** -/
theorem verifyReloadKeepsOverlay_eq_ok {device overlay : Device} :
    verifyReloadKeepsOverlay device overlay = .ok () ↔ ∀ s ∈ device.settings,
      run (overlay.calls false) Store.reset s.port =
        if s.skipped then some s.value else none := by
  rw [verifyReloadKeepsOverlay, forM_eq_ok]
  refine forall₂_congr fun s _ => ?_
  rw [verifySetting, overlaySettings_eq]
  cases hskip : s.skipped <;> cases hrun : run (overlay.calls false) Store.reset s.port with
  | none => simp
  | some v =>
    by_cases hv : v = s.value
    · simp [hv]
    · have hne : v.print ≠ s.value.print := fun h => hv (SettingValue.print_injective h)
      simp [hv, hne]

variable {device overlay : Device}

/-- **A reload writes no setting its overlay wrote.** -/
theorem reload_disjoint (hverify : verifyReloadKeepsOverlay device overlay = .ok ())
    {k : SwitchPort Port} {v : SettingValue Port}
    (h : (k, v) ∈ (device.calls true).flatMap Call.sets) :
    run (overlay.calls false) Store.reset k = none := by
  obtain ⟨s, hs, hskip, heq⟩ := (device_mem_calls device).1 h
  rw [Bool.true_and] at hskip
  rw [PortSetting.write, Prod.mk.injEq] at heq
  rw [heq.1, verifyReloadKeepsOverlay_eq_ok.1 hverify s hs, hskip]
  rfl

/-- **The settings an overlay wrote are unchanged throughout a reload.** -/
theorem reload_unchanged (hverify : verifyReloadKeepsOverlay device overlay = .ok ())
    {calls : List (Call Port)} (hcalls : calls <+: device.calls true) {k : SwitchPort Port}
    {v : SettingValue Port} (h : run (overlay.calls false) Store.reset k = some v) :
    run calls (run (overlay.calls false) Store.reset) k = some v := by
  have hnone : lastWrite k (calls.flatMap Call.sets) = none := by
    refine lastWrite_eq_none.2 fun v' hv' => ?_
    obtain ⟨c, hc, hw⟩ := List.mem_flatMap.1 hv'
    have hmem := List.mem_flatMap.2 ⟨c, hcalls.subset hc, hw⟩
    rw [reload_disjoint hverify hmem] at h
    cases h
  rw [run, writeAll_apply, hnone, Option.none_or, h]

/-- **A reload over an accepted overlay ends in the full configuration.** -/
theorem reload_full (hverify : verifyReloadKeepsOverlay device overlay = .ok ())
    {k : SwitchPort Port} {v : SettingValue Port}
    (h : run (device.calls false) Store.reset k = some v) :
    run (device.calls true) (run (overlay.calls false) Store.reset) k = some v := by
  have hok := verifyReloadKeepsOverlay_eq_ok.1 hverify
  rw [run, writeAll_reset] at h
  obtain ⟨s, hs, _, heq⟩ := (device_mem_calls device).1 (mem_of_lastWrite h)
  rw [PortSetting.write, Prod.mk.injEq] at heq
  cases hov : run (overlay.calls false) Store.reset k with
  | some u =>
    -- every operation on the setting is skipped, and the overlay set it the same way
    rw [reload_unchanged hverify (List.prefix_rfl) hov, ← hov, heq.1, hok s hs]
    have hskip : s.skipped = true := by
      by_contra hskip
      rw [heq.1, hok s hs, if_neg hskip] at hov
      cases hov
    rw [if_pos hskip, heq.2]
  | none =>
    -- no operation on the setting is skipped
    have hskip : ∀ s ∈ device.settings, s.port = k → s.skipped = false := by
      rintro s hs rfl
      rw [hok s hs] at hov
      cases hskip : s.skipped
      · rfl
      · rw [hskip, if_pos rfl] at hov
        cases hov
    have hlast : lastWrite k ((device.calls true).flatMap Call.sets) =
        lastWrite k ((device.calls false).flatMap Call.sets) := by
      rw [device_sets, device_sets]
      refine lastWrite_flatMap_congr fun sb hsb => lastWrite_reload sb fun s hs => ?_
      exact hskip s (List.mem_flatMap.2 ⟨sb, hsb, hs⟩)
    rw [run, writeAll_apply, hlast, h, Option.some_or]

/-! ## The driver's ports -/

theorem strmPort_injective {p q : Port} {r : StrmPort} (hp : strmPort p = some r)
    (hq : strmPort q = some r) : p = q := by
  obtain ⟨b, n⟩ := p
  obtain ⟨b', n'⟩ := q
  obtain ⟨t, ht, rfl⟩ := Option.map_eq_some_iff.1 hp
  obtain ⟨t', ht', heq⟩ := Option.map_eq_some_iff.1 hq
  rw [StrmPort.mk.injEq] at heq
  obtain ⟨rfl, rfl⟩ := heq
  rw [Port.mk.injEq]
  refine ⟨?_, rfl⟩
  cases b <;> cases ht <;> cases b' <;> first | rfl | cases ht'

def SwitchPort.lower (p : SwitchPort Port) : Option (SwitchPort StrmPort) :=
  (strmPort p.port).map fun port => ⟨p.tile, p.master, port, p.slot⟩

def SettingValue.lower : SettingValue Port → Option (SettingValue StrmPort)
  | .circuitFrom source => (strmPort source).map .circuitFrom
  | .circuit => some .circuit
  | .packetMaster arbiter mask keep => some (.packetMaster arbiter mask keep)
  | .packet => some .packet
  | .rule value mask amsel => some (.rule value mask amsel)

theorem SwitchPort.lower_injective (p q : SwitchPort Port) (r : SwitchPort StrmPort)
    (hp : p.lower = some r) (hq : q.lower = some r) : p = q := by
  obtain ⟨s, hs, rfl⟩ := Option.map_eq_some_iff.1 hp
  obtain ⟨s', hs', heq⟩ := Option.map_eq_some_iff.1 hq
  rw [SwitchPort.mk.injEq] at heq
  obtain ⟨htile, hmaster, rfl, hslot⟩ := heq
  cases p
  cases q
  rw [SwitchPort.mk.injEq]
  exact ⟨htile.symm, hmaster.symm, strmPort_injective hs hs', hslot.symm⟩

abbrev LowersCall : SwitchPort Port × SettingValue Port →
    SwitchPort StrmPort × SettingValue StrmPort → Prop :=
  LowersWrite SwitchPort.lower SettingValue.lower

/-- The settings a call names are those it names on the driver's ports. -/
theorem lower_sets {c : Call Port} {c' : Call StrmPort} (h : c.lower = some c') :
    List.Forall₂ LowersCall c.sets c'.sets := by
  cases c with
  | strmConnCctEnable tile slave master =>
    obtain ⟨s, hs, h⟩ := Option.bind_eq_some_iff.1 h
    obtain ⟨m, hm, h⟩ := Option.bind_eq_some_iff.1 h
    cases h
    refine .cons ⟨?_, ?_⟩ (.cons ⟨?_, rfl⟩ .nil)
    · rw [SwitchPort.lower, hm]
      rfl
    · rw [SettingValue.lower, hs]
      rfl
    · rw [SwitchPort.lower, hs]
      rfl
  | strmPktSwMstrPortEnable tile port _ _ _ | strmPktSwSlavePortEnable tile port
  | strmPktSwSlaveSlotEnable tile port _ _ _ _ _ =>
    obtain ⟨p, hp, h⟩ := Option.bind_eq_some_iff.1 h
    cases h
    refine .cons ⟨?_, rfl⟩ .nil
    rw [SwitchPort.lower, hp]
    rfl

/-- A call whose settings are all on ports of the driver can be made. -/
theorem exists_lower {c : Call Port} (h : ∀ w ∈ c.sets, ∃ p, w.1.lower = some p) :
    ∃ c', c.lower = some c' := by
  have hport : ∀ w ∈ c.sets, ∃ p, strmPort w.1.port = some p := fun w hw => by
    obtain ⟨p, hp⟩ := h w hw
    obtain ⟨q, hq, _⟩ := Option.map_eq_some_iff.1 hp
    exact ⟨q, hq⟩
  cases c with
  | strmConnCctEnable tile slave master =>
    obtain ⟨m, hm⟩ := hport _ List.mem_cons_self
    obtain ⟨s, hs⟩ := hport _ (List.mem_cons_of_mem _ List.mem_cons_self)
    exact ⟨.strmConnCctEnable tile s m, by rw [Call.lower, hs, hm]; rfl⟩
  | strmPktSwMstrPortEnable tile master dropHeader arbiter mselEn =>
    obtain ⟨m, hm⟩ := hport _ List.mem_cons_self
    exact ⟨.strmPktSwMstrPortEnable tile m dropHeader arbiter mselEn, by rw [Call.lower, hm]; rfl⟩
  | strmPktSwSlavePortEnable tile slave =>
    obtain ⟨s, hs⟩ := hport _ List.mem_cons_self
    exact ⟨.strmPktSwSlavePortEnable tile s, by rw [Call.lower, hs]; rfl⟩
  | strmPktSwSlaveSlotEnable tile slave slot pktId mask msel arbiter =>
    obtain ⟨s, hs⟩ := hport _ List.mem_cons_self
    exact ⟨.strmPktSwSlaveSlotEnable tile s slot pktId mask msel arbiter,
      by rw [Call.lower, hs]; rfl⟩

abbrev LowersArray : Store (SwitchPort Port) (SettingValue Port) →
    Store (SwitchPort StrmPort) (SettingValue StrmPort) → Prop :=
  Lowers SwitchPort.lower SettingValue.lower

theorem run_lowers {calls : List (Call Port)} {calls' : List (Call StrmPort)}
    (h : List.Forall₂ (fun c c' => c.lower = some c') calls calls')
    {array : Store (SwitchPort Port) (SettingValue Port)}
    {array' : Store (SwitchPort StrmPort) (SettingValue StrmPort)} (ha : LowersArray array array') :
    LowersArray (run calls array) (run calls' array') :=
  ha.writeAll SwitchPort.lower_injective (List.rel_flatMap h fun _ _ => lower_sets)

theorem lower_of_mem {calls : List (Call Port)} {calls' : List (Call StrmPort)}
    (h : calls.mapM Call.lower = some calls') {w : SwitchPort Port × SettingValue Port}
    (hw : w ∈ calls.flatMap Call.sets) : ∃ p, w.1.lower = some p := by
  have hsets : List.Forall₂ LowersCall (calls.flatMap Call.sets) (calls'.flatMap Call.sets) :=
    List.rel_flatMap (mapM_forall₂.1 h) fun _ _ => lower_sets
  generalize calls.flatMap Call.sets = ws at hw hsets
  generalize calls'.flatMap Call.sets = ws' at hsets
  induction hsets with
  | nil => cases hw
  | cons hl _ ih =>
    rcases List.mem_cons.1 hw with rfl | hw
    · exact ⟨_, hl.1⟩
    · exact ih hw

/-- Where the overlay's calls and the reload's can be made, so can those of the full
configuration. -/
theorem exists_fullCalls (hverify : verifyReloadKeepsOverlay device overlay = .ok ())
    {overlayCalls reloadCalls : List (Call StrmPort)}
    (hoverlay : configureSwitches overlay false = some overlayCalls)
    (hreload : configureSwitches device true = some reloadCalls) :
    ∃ fullCalls, configureSwitches device false = some fullCalls := by
  refine exists_mapM fun c hc => exists_lower fun w hw => ?_
  obtain ⟨s, hs, _, rfl⟩ := (device_mem_calls device).1 (List.mem_flatMap.2 ⟨c, hc, hw⟩)
  cases hskip : s.skipped with
  | false =>
    refine lower_of_mem hreload ((device_mem_calls device).2 ⟨s, hs, ?_, rfl⟩)
    rw [hskip]
    rfl
  | true =>
    have h := verifyReloadKeepsOverlay_eq_ok.1 hverify s hs
    rw [hskip, if_pos rfl, run, writeAll_reset] at h
    exact lower_of_mem hoverlay (mem_of_lastWrite h)

/-- **A control-packet reload over an accepted overlay ends in the full configuration.** Throughout
the reload the settings the overlay wrote are unchanged, and after it every setting the full
configuration sets on a reset array is set the same. -/
theorem reload_completes {overlayCalls reloadCalls : List (Call StrmPort)}
    (hverify : verifyReloadKeepsOverlay device overlay = .ok ())
    (hoverlay : configureSwitches overlay false = some overlayCalls)
    (hreload : configureSwitches device true = some reloadCalls) :
    (∀ calls, calls <+: reloadCalls → ∀ port value,
      run overlayCalls Store.reset port = some value →
        run calls (run overlayCalls Store.reset) port = some value) ∧
    ∃ fullCalls, configureSwitches device false = some fullCalls ∧ ∀ port value,
      run fullCalls Store.reset port = some value →
        run reloadCalls (run overlayCalls Store.reset) port = some value := by
  have harray := run_lowers (mapM_forall₂.mp hoverlay) (Lowers.reset _ _)
  constructor
  · rintro calls ⟨rest, rfl⟩ port value hvalue
    have hcalls := List.forall₂_take_append _ calls rest (mapM_forall₂.mp hreload)
    exact harray.eq_of_eq (run_lowers hcalls harray)
      (fun k v => reload_unchanged hverify (List.take_prefix _ _)) hvalue
  · obtain ⟨fullCalls, hfull⟩ := exists_fullCalls hverify hoverlay hreload
    refine ⟨fullCalls, hfull, fun port value hvalue => ?_⟩
    exact (run_lowers (mapM_forall₂.mp hfull) (Lowers.reset _ _)).eq_of_eq
      (run_lowers (mapM_forall₂.mp hreload) harray) (fun k v => reload_full hverify) hvalue

def sharedOverlay : Device where
  symName := "ctrl_pkt_overlay"
  switchboxes := [{
    tile := ⟨0, 0⟩
    connections := [.amsel ⟨0, 0⟩, .masterset ⟨.TileControl, 0⟩ [⟨0, 0⟩] none true,
      .packetRules ⟨.South, 3⟩ [⟨31, 15, ⟨0, 0⟩, true⟩] false] }]

def sharedDesign : Device where
  symName := "main"
  switchboxes := [{
    tile := ⟨0, 0⟩
    connections := [.connect ⟨.South, 2⟩ ⟨.North, 1⟩ false, .amsel ⟨0, 0⟩, .amsel ⟨1, 0⟩,
      .masterset ⟨.TileControl, 0⟩ [⟨0, 0⟩] none true,
      .masterset ⟨.North, 0⟩ [⟨1, 0⟩] none false,
      .packetRules ⟨.South, 3⟩ [⟨31, 15, ⟨0, 0⟩, true⟩, ⟨31, 2, ⟨1, 0⟩, false⟩] false] }]

/-- A design that shares the slave port `South : 3` with the control packets of its overlay, over
that overlay. -/
theorem reload_completes_shared :
    ∃ overlayCalls reloadCalls : List (Call StrmPort),
      (∀ calls, calls <+: reloadCalls → ∀ port value,
        run overlayCalls Store.reset port = some value →
          run calls (run overlayCalls Store.reset) port = some value) ∧
      ∃ fullCalls, configureSwitches sharedDesign false = some fullCalls ∧ ∀ port value,
        run fullCalls Store.reset port = some value →
          run reloadCalls (run overlayCalls Store.reset) port = some value := by
  refine ⟨_, _, @reload_completes sharedDesign sharedOverlay _ _ ?_ rfl rfl⟩
  decide

end MlirAie.Overlay
