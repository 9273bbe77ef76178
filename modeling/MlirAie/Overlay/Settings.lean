import MlirAie.Overlay.Text

/-!
# The settings a switchbox writes

* **`mem_calls`**: the calls for a switchbox write the settings its operations are taken to write,
  and those of a reload the settings it is taken not to skip;
* `settings_agree`: a switchbox sets no setting to two values;
* `lastWrite_calls`, `lastWrite_reload`: what the calls for a switchbox leave.
-/

namespace MlirAie.Overlay

open Route Lib

variable {skip : Bool} {tile : TileID} {source : Port} {overlayPort : Bool}

theorem mem_configureRules {w : SwitchPort Port × SettingValue Port} (slot : ℕ)
    (rules : List PacketRule) :
    w ∈ (configureRules skip tile source overlayPort slot rules).flatMap Call.sets ↔
      ∃ rule i, (rule, i) ∈ rules.zipIdx slot ∧ (skip && rule.isCtrlPktOverlay) = false ∧
        (w = (⟨tile, false, source, i⟩, .rule rule.valueInt rule.maskInt rule.amsel) ∨
          overlayPort = false ∧ w = (⟨tile, false, source, -1⟩, .packet)) := by
  induction rules generalizing slot with
  | nil => simp [configureRules]
  | cons rule rules ih =>
    rw [configureRules]
    by_cases h : (skip && rule.isCtrlPktOverlay) = true
    · rw [if_pos h, ih]
      constructor
      · rintro ⟨r, i, hr, h⟩
        exact ⟨r, i, by rw [List.zipIdx_cons]; exact List.mem_cons_of_mem _ hr, h⟩
      · rintro ⟨r, i, hr, hskip, h'⟩
        rw [List.zipIdx_cons, List.mem_cons] at hr
        rcases hr with hr | hr
        · cases hr
          rw [h] at hskip
          cases hskip
        · exact ⟨r, i, hr, hskip, h'⟩
    · rw [if_neg h, List.flatMap_append, List.flatMap_cons, List.mem_append, List.mem_append, ih]
      rw [Bool.not_eq_true] at h
      simp only [List.zipIdx_cons, List.mem_cons, Prod.mk.injEq]
      constructor
      · rintro (hw | hw | ⟨r, i, hr, hskip, hw⟩)
        · refine ⟨rule, slot, .inl ⟨rfl, rfl⟩, h, .inr ?_⟩
          cases overlayPort
          · simpa [Call.sets] using hw
          · simp at hw
        · refine ⟨rule, slot, .inl ⟨rfl, rfl⟩, h, .inl ?_⟩
          simpa [Call.sets] using hw
        · exact ⟨r, i, .inr hr, hskip, hw⟩
      · rintro ⟨r, i, ⟨rfl, rfl⟩ | hr, hskip, hw⟩
        · rcases hw with rfl | ⟨rfl, rfl⟩
          · exact .inr (.inl (by simp [Call.sets]))
          · exact .inl (by simp [Call.sets])
        · exact .inr (.inr ⟨r, i, hr, hskip, hw⟩)

def opCalls (skip : Bool) (tile : TileID) (op : SwitchOp) : List (Call Port) :=
  configureConnect skip tile op ++ configureMasterSet skip tile op ++
    configurePacketRules skip tile op

@[grind =]
def PortSetting.write (s : PortSetting) : SwitchPort Port × SettingValue Port := (s.port, s.value)

/-- **The calls for an operation write the settings it is taken to write, and a reload those it is
taken not to skip.** -/
theorem mem_opCalls {op : SwitchOp} {w : SwitchPort Port × SettingValue Port} :
    w ∈ (opCalls skip tile op).flatMap Call.sets ↔
      ∃ s ∈ portSettings tile op, (skip && s.skipped) = false ∧ w = s.write := by
  cases op with
  | connect src dest overlay =>
    cases skip <;> cases overlay <;>
      simp [opCalls, configureConnect, configureMasterSet, configurePacketRules, portSettings,
        PortSetting.write, Call.sets]
  | masterset dest amsels keep overlay =>
    cases skip <;> cases overlay <;>
      simp [opCalls, configureConnect, configureMasterSet, configurePacketRules, portSettings,
        PortSetting.write, Call.sets]
  | amsel a => simp [opCalls, configureConnect, configureMasterSet, configurePacketRules,
      portSettings]
  | packetRules src rules overlay =>
    have hcalls : opCalls skip tile (.packetRules src rules overlay) =
        configurePacketRules skip tile (.packetRules src rules overlay) := rfl
    rw [hcalls, configurePacketRules]
    by_cases hempty : rules = []
    · subst hempty
      simp [configureRules, portSettings]
    · have hne : rules.isEmpty = false := by simpa using hempty
      rw [portSettings, hne, if_neg Bool.false_ne_true]
      by_cases h : (skip && overlay) = true
      · rw [if_pos h]
        rw [Bool.and_eq_true] at h
        obtain ⟨rfl, rfl⟩ := h
        simp
      · rw [if_neg h, mem_configureRules]
        simp only [List.mem_cons, List.mem_map, exists_eq_or_imp]
        constructor
        · rintro ⟨rule, i, hr, hskip, rfl | ⟨hport, rfl⟩⟩
          · refine .inr ⟨_, ⟨(rule, i), hr, rfl⟩, ?_, rfl⟩
            cases skip <;> simp_all
          · refine .inl ⟨?_, rfl⟩
            cases skip <;> simp_all
        · rintro (⟨hskip, rfl⟩ | ⟨_, ⟨⟨rule, i⟩, hr, rfl⟩, hskip, rfl⟩)
          · obtain ⟨rule, hrule⟩ := List.exists_mem_of_ne_nil rules hempty
            obtain ⟨i, hi⟩ := List.getElem?_of_mem hrule
            refine ⟨rule, i, List.mk_mem_zipIdx_iff_getElem?.2 hi, ?_, .inr ⟨?_, rfl⟩⟩
            · cases skip <;> simp_all
            · cases skip <;> simp_all
          · refine ⟨rule, i, hr, ?_, .inl rfl⟩
            cases skip <;> simp_all

/-! ## Agreement in a switchbox -/

def SwitchOp.dest : SwitchOp → Option Port
  | .connect _ dest _ => some dest
  | .masterset dest _ _ _ => some dest
  | _ => none

def SwitchOp.rulesSource : SwitchOp → Option Port
  | .packetRules source _ _ => some source
  | _ => none

theorem verifyPorts_dests {ops : List SwitchOp} {sources dests : List Port}
    (h : verifyPorts ops sources dests = true) :
    (ops.filterMap SwitchOp.dest).Nodup ∧ ∀ d ∈ ops.filterMap SwitchOp.dest, d ∉ dests := by
  induction ops generalizing sources dests with
  | nil => exact ⟨List.nodup_nil, by simp⟩
  | cons op ops ih =>
    cases op with
    | connect _ dest _ | masterset dest _ _ _ =>
      rw [verifyPorts, Bool.and_eq_true] at h
      obtain ⟨hnodup, hnot⟩ := ih h.2
      have hdest : dest ∉ dests := by simpa using h.1
      simp only [List.filterMap_cons, SwitchOp.dest]
      refine ⟨List.nodup_cons.2 ⟨fun hd => hnot dest hd List.mem_cons_self, hnodup⟩, ?_⟩
      intro d hd
      rcases List.mem_cons.1 hd with rfl | hd
      · exact hdest
      · exact fun hmem => hnot d hd (List.mem_cons_of_mem dest hmem)
    | packetRules source _ _ =>
      rw [verifyPorts, Bool.and_eq_true] at h
      exact ih h.2
    | amsel _ => exact ih h

theorem verifyPorts_sources {ops : List SwitchOp} {sources dests : List Port}
    (h : verifyPorts ops sources dests = true) :
    (ops.filterMap SwitchOp.rulesSource).Nodup ∧
      ∀ s ∈ ops.filterMap SwitchOp.rulesSource, s ∉ sources := by
  induction ops generalizing sources dests with
  | nil => exact ⟨List.nodup_nil, by simp⟩
  | cons op ops ih =>
    cases op with
    | connect _ dest _ | masterset dest _ _ _ =>
      rw [verifyPorts, Bool.and_eq_true] at h
      exact ih h.2
    | packetRules source _ _ =>
      rw [verifyPorts, Bool.and_eq_true] at h
      obtain ⟨hnodup, hnot⟩ := ih h.2
      have hsource : source ∉ sources := by simpa using h.1
      simp only [List.filterMap_cons, SwitchOp.rulesSource]
      refine ⟨List.nodup_cons.2 ⟨fun hs => hnot source hs List.mem_cons_self, hnodup⟩, ?_⟩
      intro s hs
      rcases List.mem_cons.1 hs with rfl | hs
      · exact hsource
      · exact fun hmem => hnot s hs (List.mem_cons_of_mem source hmem)
    | amsel _ => exact ih h

/-- Where a setting comes from: the destination of an operation, the source of a connect, or the
source of packet rules. -/
theorem port_of_mem {op : SwitchOp} {s : PortSetting} (h : s ∈ portSettings tile op) :
    (∃ d, op.dest = some d ∧ s.port = ⟨tile, true, d, -1⟩) ∨
      (∃ p, op.connectSource = some p ∧ s.port = ⟨tile, false, p, -1⟩ ∧ s.value = .circuit) ∨
      ∃ p i, op.rulesSource = some p ∧ s.port = ⟨tile, false, p, i⟩ := by
  cases op with
  | connect src dest overlay =>
    rcases List.mem_pair.1 h with rfl | rfl
    · exact .inl ⟨dest, rfl, rfl⟩
    · exact .inr (.inl ⟨src, rfl, rfl, rfl⟩)
  | masterset dest amsels keep overlay =>
    rw [portSettings, List.mem_singleton] at h
    subst h
    exact .inl ⟨dest, rfl, rfl⟩
  | packetRules src rules overlay =>
    rw [portSettings] at h
    by_cases hempty : rules.isEmpty
    · rw [if_pos hempty] at h
      cases h
    · rw [if_neg hempty] at h
      rcases List.mem_cons.1 h with rfl | h
      · exact .inr (.inr ⟨src, -1, rfl, rfl⟩)
      · obtain ⟨⟨rule, i⟩, _, rfl⟩ := List.mem_map.1 h
        exact .inr (.inr ⟨src, i, rfl, rfl⟩)
  | amsel a => cases h

/-- Settings of two operations at one port have one value. -/
def SettingsAgree (tile : TileID) (op op' : SwitchOp) : Prop :=
  ∀ s ∈ portSettings tile op, ∀ s' ∈ portSettings tile op', s.port = s'.port → s.value = s'.value

instance : Std.Symm (SettingsAgree tile) :=
  ⟨fun _ _ h s hs s' hs' heq => (h s' hs' s hs heq.symm).symm⟩

theorem SettingsAgree.refl (op : SwitchOp) : SettingsAgree tile op op := by
  intro s hs s' hs' heq
  cases op with
  | connect src dest overlay =>
    rcases List.mem_pair.1 hs with rfl | rfl <;> rcases List.mem_pair.1 hs' with rfl | rfl
    · rfl
    · cases heq
    · cases heq
    · rfl
  | masterset dest amsels keep overlay =>
    rw [portSettings, List.mem_singleton] at hs hs'
    rw [hs, hs']
  | packetRules src rules overlay =>
    rw [portSettings] at hs hs'
    by_cases hempty : rules.isEmpty
    · rw [if_pos hempty] at hs
      cases hs
    · rw [if_neg hempty, List.mem_cons, List.mem_map] at hs hs'
      rcases hs with rfl | ⟨⟨rule, i⟩, hi, rfl⟩ <;> rcases hs' with rfl | ⟨⟨rule', i'⟩, hi', rfl⟩
      · rfl
      · injection heq with _ _ _ hslot
        omega
      · injection heq with _ _ _ hslot
        omega
      · injection heq with _ _ _ hslot
        have hii : i = i' := by omega
        rw [List.mk_mem_zipIdx_iff_getElem?] at hi hi'
        rw [hii, hi'] at hi
        cases hi
        rfl
  | amsel a => cases hs

theorem settings_agree (sb : Switchbox) {s s' : PortSetting} (hs : s ∈ sb.settings)
    (hs' : s' ∈ sb.settings) (heq : s.port = s'.port) : s.value = s'.value := by
  obtain ⟨hdests, -⟩ := verifyPorts_dests sb.verified
  obtain ⟨hrules, hconnect⟩ := verifyPorts_sources sb.verified
  rw [List.Nodup, List.pairwise_filterMap] at hdests hrules
  -- the ports of two operations are told apart by the checks of the switchbox
  have hpairs : sb.connections.Pairwise (SettingsAgree sb.tile) := by
    refine (hdests.and hrules).imp_of_mem ?_
    rintro op op' hop hop' ⟨hd, hr⟩ s hs s' hs' heq
    rcases port_of_mem hs with ⟨d, hd₁, hp⟩ | ⟨p, hc, hp, hv⟩ | ⟨p, i, hr₁, hp⟩ <;>
      rcases port_of_mem hs' with ⟨d', hd₂, hp'⟩ | ⟨p', hc', hp', hv'⟩ | ⟨p', i', hr₂, hp'⟩ <;>
      rw [hp, hp', SwitchPort.mk.injEq] at heq
    · exact absurd heq.2.2.1 (hd d hd₁ d' hd₂)
    · cases heq.2.1
    · cases heq.2.1
    · cases heq.2.1
    · rw [hv, hv']
    · refine absurd ?_ (hconnect p' (List.mem_filterMap.2 ⟨op', hop', hr₂⟩))
      exact List.mem_filterMap.2 ⟨op, hop, by rw [hc, heq.2.2.1]⟩
    · cases heq.2.1
    · refine absurd ?_ (hconnect p (List.mem_filterMap.2 ⟨op, hop, hr₁⟩))
      exact List.mem_filterMap.2 ⟨op', hop', by rw [hc', heq.2.2.1]⟩
    · exact absurd heq.2.2.1 (hr p hr₁ p' hr₂)
  obtain ⟨op, hop, hs⟩ := List.mem_flatMap.1 hs
  obtain ⟨op', hop', hs'⟩ := List.mem_flatMap.1 hs'
  have hall : ∀ ⦃op⦄, op ∈ sb.connections → ∀ ⦃op'⦄, op' ∈ sb.connections →
      SettingsAgree sb.tile op op' :=
    List.Pairwise.forall_of_forall
      (fun op _ => SettingsAgree.refl op) hpairs
  exact hall hop hop' s hs s' hs' heq

/-! ## Calls and settings -/

theorem mem_calls (sb : Switchbox) {w : SwitchPort Port × SettingValue Port} :
    w ∈ (sb.calls skip).flatMap Call.sets ↔
      ∃ s ∈ sb.settings, (skip && s.skipped) = false ∧ w = s.write := by
  have hop : w ∈ (sb.calls skip).flatMap Call.sets ↔
      ∃ op ∈ sb.connections, w ∈ (opCalls skip sb.tile op).flatMap Call.sets := by
    simp only [Switchbox.calls, opCalls, List.mem_flatMap, List.mem_append]
    constructor
    · rintro ⟨c, (⟨op, hop, hc⟩ | ⟨op, hop, hc⟩) | ⟨op, hop, hc⟩, hw⟩
      · exact ⟨op, hop, c, .inl (.inl hc), hw⟩
      · exact ⟨op, hop, c, .inl (.inr hc), hw⟩
      · exact ⟨op, hop, c, .inr hc, hw⟩
    · rintro ⟨op, hop, c, (hc | hc) | hc, hw⟩
      · exact ⟨c, .inl (.inl ⟨op, hop, hc⟩), hw⟩
      · exact ⟨c, .inl (.inr ⟨op, hop, hc⟩), hw⟩
      · exact ⟨c, .inr ⟨op, hop, hc⟩, hw⟩
  rw [hop]
  constructor
  · rintro ⟨op, hop, hw⟩
    obtain ⟨s, hs, h⟩ := mem_opCalls.1 hw
    exact ⟨s, List.mem_flatMap.2 ⟨op, hop, hs⟩, h⟩
  · rintro ⟨s, hs, h⟩
    obtain ⟨op, hop, hs⟩ := List.mem_flatMap.1 hs
    exact ⟨op, hop, mem_opCalls.2 ⟨s, hs, h⟩⟩

theorem calls_agree (sb : Switchbox) {k : SwitchPort Port} {v v' : SettingValue Port}
    (h : (k, v) ∈ (sb.calls skip).flatMap Call.sets)
    (h' : (k, v') ∈ (sb.calls skip).flatMap Call.sets) : v = v' := by
  obtain ⟨s, hs, _, heq⟩ := (mem_calls sb).1 h
  obtain ⟨s', hs', _, heq'⟩ := (mem_calls sb).1 h'
  rw [PortSetting.write, Prod.mk.injEq] at heq heq'
  rw [heq.2, heq'.2]
  exact settings_agree sb hs hs' (heq.1.symm.trans heq'.1)

/-- The calls of a switchbox, made class by class, leave what its operations are taken to write in
order. -/
theorem lastWrite_calls (sb : Switchbox) (k : SwitchPort Port) :
    lastWrite k ((sb.calls false).flatMap Call.sets) =
      lastWrite k (sb.settings.map PortSetting.write) := by
  refine lastWrite_congr (fun v => ?_) fun v v' => calls_agree sb
  rw [mem_calls, List.mem_map]
  constructor
  · rintro ⟨s, hs, _, heq⟩
    exact ⟨s, hs, heq.symm⟩
  · rintro ⟨s, hs, heq⟩
    exact ⟨s, hs, rfl, heq.symm⟩

/-- A reload writes a setting of a switchbox as the full configuration does, if it skips none of
the operations on it. -/
theorem lastWrite_reload (sb : Switchbox) {k : SwitchPort Port}
    (h : ∀ s ∈ sb.settings, s.port = k → s.skipped = false) :
    lastWrite k ((sb.calls true).flatMap Call.sets) =
      lastWrite k ((sb.calls false).flatMap Call.sets) := by
  refine lastWrite_congr (fun v => ?_) fun v v' => calls_agree sb
  rw [mem_calls, mem_calls]
  constructor
  · rintro ⟨s, hs, _, heq⟩
    exact ⟨s, hs, rfl, heq⟩
  · rintro ⟨s, hs, _, heq⟩
    refine ⟨s, hs, ?_, heq⟩
    rw [PortSetting.write, Prod.mk.injEq] at heq
    rw [h s hs heq.1.symm]
    rfl

end MlirAie.Overlay
