import MlirAie.Lib.Lists
import MlirAie.Pdi.Expand

/-!
# Resets that take effect

The firmware ignores the load of the PDI loaded last, and the host runs a sequence again and again.
The index of a `load_pdi` tells the PDI inserted for it; what stands before an inserted load is the
`load_pdi` before it, or, at the start, the end of the run before.

* `EveryResetTakesEffect`: what the loads inserted are for;
* `Alternates`: the condition on the sequence;
* **`everyResetTakesEffect_iff`**: the inserted loads take effect exactly under it.
-/

namespace MlirAie.Pdi

open Lib

/-! ## What is executed -/

/-- A `load_pdi` as the firmware meets it. -/
structure Loaded where
  ref : Option String
  inserted : Bool

def Emitted.loaded? (emitted : Emitted) : Option Loaded :=
  match emitted.op with
  | .loadPdi load => some ⟨load.deviceRef, emitted.inserted⟩
  | _ => none

/-- An inserted load names another PDI than the load right before it. -/
def TakesEffect (before after : Loaded) : Prop := after.inserted = true → before.ref ≠ after.ref

def EveryResetTakesEffect (ops : List Emitted) : Prop :=
  ∀ runs, ((rounds ops runs).filterMap Emitted.loaded?).IsChain TakesEffect

/-! ## What the pass makes of a sequence -/

/-- A `load_pdi` that is left, or the PDI loaded for one that is expanded. -/
inductive Slot where
  | kept (ref : Option String)
  | reset (parity : ℕ)
  | overlay (parity : ℕ)
  deriving DecidableEq

@[grind =] def Slot.loaded : Slot → Loaded
  | kept ref => ⟨ref, false⟩
  | reset parity => ⟨some (emptyName parity), true⟩
  | overlay parity => ⟨some (overlayName parity), true⟩

/-- The second load is ignored after the first. -/
@[grind =] def Slot.Clash : Slot → Slot → Prop
  | kept ref, reset parity => ref = some (emptyName parity)
  | kept ref, overlay parity => ref = some (overlayName parity)
  | reset parity, reset parity' => parity = parity'
  | overlay parity, overlay parity' => parity = parity'
  | _, _ => False

instance : DecidableRel Slot.Clash := fun a b => by
  unfold Slot.Clash
  split <;> infer_instance

@[grind =] def LoadPdi.slot (options : Options) (index : ℕ) (load : LoadPdi) : Slot :=
  match load.deviceRef with
  | none => .kept none
  | some ref =>
    match load.mode options with
    | .none => .kept (some ref)
    | .write32 => .reset (index % 2)
    | .ctrlpkt => .overlay (index % 2)

/-- The slots of a sequence whose first `load_pdi` has the given index. -/
def slots (options : Options) : ℕ → List Op → List Slot
  | _, [] => []
  | index, .loadPdi load :: ops => load.slot options index :: slots options (index + 1) ops
  | index, _ :: ops => slots options index ops

/-- The reset at the end of a sequence, if there is one. -/
def closing (info : Option ResetParity) : List Slot :=
  match info with
  | none => []
  | some info =>
    if info.firstParity ≠ info.lastParity then [] else [.reset (1 - info.lastParity)]

/-- What a sequence is to meet. A `load_pdi` that is left does not name the PDI loaded next, the
reset at the end is another one than those around it, and without it the last slot and the first
do not clash: they are not two overlays, nor two resets, of one parity. -/
structure Alternates (slots closing : List Slot) : Prop where
  kept : slots.IsChain fun a b => a.loaded.inserted = false → ¬ a.Clash b
  closed : ∀ reset ∈ closing, (∀ last ∈ slots.getLast?, ¬ last.Clash reset) ∧
    ∀ first ∈ slots.head?, ¬ reset.Clash first
  wrapped : closing = [] → ∀ last ∈ slots.getLast?, ∀ first ∈ slots.head?, ¬ last.Clash first

/-- The index of the first `load_pdi` of a sequence. -/
def Module.startIndex (m : Module) (i : ℕ) : ℕ := ((m.sequences.take i).map loadCount).sum

/-! ## Names -/

/-- A parity is `0` or `1`. -/
def Slot.Binary : Slot → Prop
  | kept _ => True
  | reset parity => parity < 2
  | overlay parity => parity < 2

theorem emptyName_inj {p q : ℕ} (hp : p < 2) (hq : q < 2) : emptyName p = emptyName q ↔ p = q := by
  interval_cases p <;> interval_cases q <;> decide

theorem overlayName_inj {p q : ℕ} (hp : p < 2) (hq : q < 2) :
    overlayName p = overlayName q ↔ p = q := by
  interval_cases p <;> interval_cases q <;> decide

theorem emptyName_ne_overlayName {p q : ℕ} (hp : p < 2) (hq : q < 2) :
    emptyName p ≠ overlayName q := by
  interval_cases p <;> interval_cases q <;> decide

theorem overlayName_mod (index : ℕ) : overlayName (index % 2) = overlayName index := by
  unfold overlayName
  rw [Nat.mod_mod]

theorem Slot.takesEffect_iff {a b : Slot} (ha : a.Binary) (hb : b.Binary) :
    TakesEffect a.loaded b.loaded ↔ ¬ a.Clash b := by
  cases a with
  | kept ref => cases b <;> simp [TakesEffect, loaded, Clash]
  | reset p =>
    cases b with
    | kept ref => simp [TakesEffect, loaded, Clash]
    | reset q => simp [TakesEffect, loaded, Clash, emptyName_inj ha hb]
    | overlay q => simp [TakesEffect, loaded, Clash, emptyName_ne_overlayName ha hb]
  | overlay p =>
    cases b with
    | kept ref => simp [TakesEffect, loaded, Clash]
    | reset q => simp [TakesEffect, loaded, Clash, (emptyName_ne_overlayName hb ha).symm]
    | overlay q => simp [TakesEffect, loaded, Clash, overlayName_inj ha hb]

theorem LoadPdi.slot_cases (options : Options) (index : ℕ) (load : LoadPdi) :
    load.slot options index = .kept load.deviceRef ∨
      load.slot options index = .reset (index % 2) ∨
      load.slot options index = .overlay (index % 2) := by
  unfold slot
  split
  · rename_i href
    exact .inl (by rw [href])
  · rename_i ref href
    split
    · exact .inl (by rw [href])
    · exact .inr (.inl rfl)
    · exact .inr (.inr rfl)

theorem LoadPdi.slot_binary (options : Options) (index : ℕ) (load : LoadPdi) :
    (load.slot options index).Binary := by
  have hlt : index % 2 < 2 := Nat.mod_lt index Nat.two_pos
  rcases load.slot_cases options index with h | h | h <;> rw [h]
  · trivial
  · exact hlt
  · exact hlt

theorem slots_binary (options : Options) (index : ℕ) (ops : List Op) :
    ∀ slot ∈ slots options index ops, slot.Binary := by
  induction ops generalizing index with
  | nil => exact List.forall_mem_nil _
  | cons op ops ih =>
    cases op with
    | loadPdi load => exact List.forall_mem_cons.2 ⟨load.slot_binary options index, ih _⟩
    | writeConfig device | controlPackets device overlay | other => exact ih _

theorem LoadPdi.slot_succ (options : Options) (index : ℕ) (load next : LoadPdi)
    (h : (load.slot options index).loaded.inserted = true) :
    ¬ (load.slot options index).Clash (next.slot options (index + 1)) := by
  have hne : index % 2 ≠ (index + 1) % 2 := by omega
  rcases load.slot_cases options index with hl | hl | hl <;>
    rcases next.slot_cases options (index + 1) with hn | hn | hn <;>
    simp_all [Slot.loaded, Slot.Clash]

/-! ## What the pass returns -/

section Returned

variable {options : Options} {reloads : Reloads}

theorem transformLoadPdi_ok {index : ℕ} {load : LoadPdi} {devices devices' : List DeviceOp}
    {out : List Emitted}
    (h : transformLoadPdi options reloads index load devices = .ok (out, devices')) :
    out.filterMap Emitted.loaded? = [(load.slot options index).loaded] := by
  unfold transformLoadPdi at h
  split at h
  · rename_i href
    cases h
    simp [LoadPdi.slot, Emitted.loaded?, Slot.loaded, href]
  · rename_i ref href
    split at h
    · rename_i hmode
      cases h
      simp [LoadPdi.slot, Emitted.loaded?, Slot.loaded, href, hmode]
    · rename_i hmode
      split at h
      · cases h
      · obtain ⟨devices₁, -, h⟩ := bind_eq_ok.1 h
        obtain ⟨_, -, h⟩ := bind_eq_ok.1 h
        cases h
        simp [LoadPdi.slot, Emitted.loaded?, Slot.loaded, href, hmode, overlayName_mod]
    · rename_i hmode
      split at h
      · cases h
      · cases h
        simp [LoadPdi.slot, Emitted.loaded?, Slot.loaded, href, hmode]

theorem transformSequence_ok {index : ℕ} {ops : List Op} {devices devices' : List DeviceOp}
    {out : List Emitted}
    (h : transformSequence options reloads index ops devices = .ok (out, devices')) :
    out.filterMap Emitted.loaded? = (slots options index ops).map Slot.loaded := by
  induction ops generalizing index devices out devices' with
  | nil =>
    cases h
    rfl
  | cons op ops ih =>
    cases op with
    | loadPdi load =>
      obtain ⟨⟨first, devices₁⟩, hfirst, h⟩ := bind_eq_ok.1 h
      obtain ⟨⟨rest, devices₂⟩, hrest, h⟩ := bind_eq_ok.1 h
      cases h
      rw [List.filterMap_append, transformLoadPdi_ok hfirst, ih hrest]
      rfl
    | writeConfig device | controlPackets device overlay | other =>
      obtain ⟨⟨rest, devices₁⟩, hrest, h⟩ := bind_eq_ok.1 h
      cases h
      rw [List.filterMap_cons, ih hrest]
      rfl

theorem transformSequences_ok {index : ℕ} {sequences : List (List Op)}
    {devices devices' : List DeviceOp} {outs : List (List Emitted)}
    (h : transformSequences options reloads index sequences devices = .ok (outs, devices'))
    {i : ℕ} {ops : List Op} (hops : sequences[i]? = some ops) :
    ∃ out, outs[i]? = some out ∧ out.filterMap Emitted.loaded? =
      (slots options (index + ((sequences.take i).map loadCount).sum) ops).map Slot.loaded := by
  induction sequences generalizing index devices outs devices' i with
  | nil => cases hops
  | cons first sequences ih =>
    obtain ⟨⟨out, devices₁⟩, hout, h⟩ := bind_eq_ok.1 h
    obtain ⟨⟨rest, devices₂⟩, hrest, h⟩ := bind_eq_ok.1 h
    cases h
    cases i with
    | zero =>
      cases hops
      exact ⟨out, rfl, transformSequence_ok hout⟩
    | succ i =>
      obtain ⟨out', hout', hloaded⟩ := ih hrest hops
      refine ⟨out', hout', ?_⟩
      rw [hloaded, List.take_succ_cons, List.map_cons, List.sum_cons, add_assoc]

theorem captureSequences_getElem? {devices : List DeviceOp} {index : ℕ}
    {sequences : List (List Op)} {i : ℕ} {ops : List Op} (hops : sequences[i]? = some ops) :
    (captureSequences options devices index sequences)[i]? = some (captureResets options devices
      none (index + ((sequences.take i).map loadCount).sum) ops) := by
  induction sequences generalizing index i with
  | nil => cases hops
  | cons first sequences ih =>
    cases i with
    | zero =>
      cases hops
      rfl
    | succ i =>
      rw [captureSequences, List.getElem?_cons_succ, ih hops, List.take_succ_cons, List.map_cons,
        List.sum_cons, add_assoc]

theorem appendReset_loaded (info : Option ResetParity) (ops : List Emitted)
    (devices : List DeviceOp) :
    (appendReset info ops devices).1.filterMap Emitted.loaded? =
      ops.filterMap Emitted.loaded? ++ (closing info).map Slot.loaded := by
  unfold appendReset closing
  cases info with
  | none => exact (List.append_nil _).symm
  | some info =>
    simp only
    split_ifs
    · exact (List.append_nil _).symm
    · exact List.filterMap_append

theorem appendResets_getElem? {infos : List (Option ResetParity)} {sequences : List (List Emitted)}
    {devices : List DeviceOp} {i : ℕ} {info : Option ResetParity} {ops : List Emitted}
    (hinfo : infos[i]? = some info) (hops : sequences[i]? = some ops) :
    ∃ out, (appendResets infos sequences devices).1[i]? = some out ∧
      out.filterMap Emitted.loaded? =
        ops.filterMap Emitted.loaded? ++ (closing info).map Slot.loaded := by
  induction infos generalizing sequences devices i with
  | nil => cases hinfo
  | cons info' infos ih =>
    cases sequences with
    | nil => cases hops
    | cons ops' sequences =>
      cases i with
      | zero =>
        cases hinfo
        cases hops
        exact ⟨_, rfl, appendReset_loaded info ops devices⟩
      | succ i => exact ih hinfo hops

theorem inlineWriteConfigs_ok {ops out : List Emitted}
    (h : inlineWriteConfigs reloads ops = .ok out) :
    out.filterMap Emitted.loaded? = ops.filterMap Emitted.loaded? := by
  induction ops generalizing out with
  | nil =>
    cases h
    rfl
  | cons emitted ops ih =>
    obtain ⟨op, inserted⟩ := emitted
    cases op with
    | writeConfig ref =>
      obtain ⟨_, -, h⟩ := bind_eq_ok.1 h
      obtain ⟨rest, hrest, h⟩ := bind_eq_ok.1 h
      cases h
      rw [List.filterMap_cons, ih hrest]
      rfl
    | loadPdi load | controlPackets device overlay | other =>
      obtain ⟨rest, hrest, h⟩ := bind_eq_ok.1 h
      cases h
      rw [List.filterMap_cons, List.filterMap_cons, ih hrest]

/-- **The loads of a sequence** after the pass are those of its slots and of its end. -/
theorem expandLoadPdi_loaded {m : Module} {out : List (List Emitted)}
    (h : expandLoadPdi options reloads m = .ok out) {i : ℕ} {ops : List Op}
    {emitted : List Emitted} (hops : m.sequences[i]? = some ops) (hout : out[i]? = some emitted) :
    emitted.filterMap Emitted.loaded? = (slots options (m.startIndex i) ops ++
      closing (captureResets options m.devices none (m.startIndex i) ops)).map Slot.loaded := by
  obtain ⟨⟨transformedAll, devices⟩, htransform, h⟩ := bind_eq_ok.1 h
  obtain ⟨_, -, h⟩ := bind_eq_ok.1 h
  obtain ⟨final, hfinal, h⟩ := bind_eq_ok.1 h
  obtain ⟨_, -, h⟩ := bind_eq_ok.1 h
  cases h
  obtain ⟨transformed, htransformed, hslots⟩ := transformSequences_ok htransform hops
  obtain ⟨appended, happended, hclosing⟩ := @appendResets_getElem? _ transformedAll devices i _ _
    (@captureSequences_getElem? options m.devices 0 _ i ops hops) htransformed
  have hinlined : emitted.filterMap Emitted.loaded? = appended.filterMap Emitted.loaded? := by
    unfold inlineSequences at hfinal
    split_ifs at hfinal
    · exact inlineWriteConfigs_ok (forall₂_getElem? (mapM_ok hfinal) happended hout)
    · cases hfinal
      rw [happended] at hout
      cases hout
      rfl
  rw [hinlined, hclosing, hslots, zero_add, List.map_append]
  rfl

end Returned

/-! ## The condition -/

theorem exists_slot_of_head? {options : Options} {index : ℕ} {ops : List Op} {b : Slot}
    (hb : b ∈ (slots options index ops).head?) : ∃ load : LoadPdi, load.slot options index = b := by
  induction ops with
  | nil => cases hb
  | cons op ops ih =>
    cases op with
    | loadPdi load => exact ⟨load, Option.some.inj hb⟩
    | writeConfig device | controlPackets device overlay | other => exact ih hb

/-- A sequence without a `load_pdi` has no reset at its end. -/
theorem captureResets_of_slots {options : Options} {devices : List DeviceOp} {index : ℕ}
    {ops : List Op} (h : slots options index ops = []) (info : Option ResetParity) :
    captureResets options devices info index ops = info := by
  induction ops with
  | nil => rfl
  | cons op ops ih =>
    cases op with
    | loadPdi load => cases h
    | writeConfig device | controlPackets device overlay | other => exact ih h

theorem closing_some (info : ResetParity) :
    closing (some info) =
      if info.firstParity ≠ info.lastParity then [] else [.reset (1 - info.lastParity)] := rfl

theorem closing_cases (info : Option ResetParity) :
    closing info = [] ∨ ∃ parity < 2, info.isSome = true ∧ closing info = [.reset parity] := by
  unfold closing
  cases info with
  | none => exact .inl rfl
  | some info =>
    simp only
    split_ifs
    · exact .inl rfl
    · exact .inr ⟨1 - info.lastParity, by omega, rfl, rfl⟩

theorem isChain_slots_iff (options : Options) (index : ℕ) (ops : List Op) :
    (slots options index ops).IsChain (fun a b => ¬ a.Clash b) ↔
      (slots options index ops).IsChain fun a b => a.loaded.inserted = false → ¬ a.Clash b := by
  induction ops generalizing index with
  | nil => exact iff_of_true List.isChain_nil List.isChain_nil
  | cons op ops ih =>
    cases op with
    | writeConfig device | controlPackets device overlay | other => exact ih index
    | loadPdi load =>
      rw [slots, List.isChain_cons, List.isChain_cons, ih]
      refine and_congr_left' (forall₂_congr fun b hb => ?_)
      obtain ⟨next, rfl⟩ := exists_slot_of_head? hb
      cases hinserted : (load.slot options index).loaded.inserted with
      | true => simp [load.slot_succ options index next hinserted]
      | false => simp

theorem takesEffect_rounds_iff {all : List Slot} (h : ∀ slot ∈ all, slot.Binary) :
    (∀ runs, (rounds (all.map Slot.loaded) runs).IsChain TakesEffect) ↔
      all.IsChain (fun a b => ¬ a.Clash b) ∧
        ∀ last ∈ all.getLast?, ∀ first ∈ all.head?, ¬ last.Clash first := by
  rw [isChain_rounds_iff, List.isChain_map, List.getLast?_map, List.head?_map]
  refine and_congr (List.IsChain.iff_of_mem_imp fun a b ha hb =>
    Slot.takesEffect_iff (h a ha) (h b hb)) ?_
  simp only [Option.mem_def, Option.map_eq_some_iff, forall_exists_index, and_imp,
    forall_apply_eq_imp_iff₂]
  refine forall₂_congr fun last hlast => forall₂_congr fun first hfirst => ?_
  exact Slot.takesEffect_iff (h last (List.mem_of_getLast? hlast))
    (h first (List.mem_of_head? hfirst))

/-- With a reset at its end, a sequence is only to keep clear of that reset. -/
theorem alternates_iff {S : List Slot} {reset : Slot} (hS : S ≠ []) :
    ((S ++ [reset]).IsChain (fun a b => ¬ a.Clash b) ∧
        ∀ last ∈ (S ++ [reset]).getLast?, ∀ first ∈ (S ++ [reset]).head?, ¬ last.Clash first) ↔
      S.IsChain (fun a b => ¬ a.Clash b) ∧ (∀ last ∈ S.getLast?, ¬ last.Clash reset) ∧
        ∀ first ∈ S.head?, ¬ reset.Clash first := by
  have hhead : (S ++ [reset]).head? = S.head? := List.head?_append_of_ne_nil S hS
  rw [List.isChain_append, List.getLast?_concat, hhead]
  simp only [List.isChain_singleton, List.head?_cons, Option.mem_def, Option.some.injEq,
    forall_eq', true_and, and_assoc]

/-- **Every inserted load takes effect** exactly if the sequence alternates. -/
theorem everyResetTakesEffect_iff {options : Options} {reloads : Reloads} {m : Module}
    {out : List (List Emitted)} (h : expandLoadPdi options reloads m = .ok out) {i : ℕ}
    {ops : List Op} {emitted : List Emitted} (hops : m.sequences[i]? = some ops)
    (hout : out[i]? = some emitted) :
    EveryResetTakesEffect emitted ↔ Alternates (slots options (m.startIndex i) ops)
      (closing (captureResets options m.devices none (m.startIndex i) ops)) := by
  have hbinary := slots_binary options (m.startIndex i) ops
  have hchain := isChain_slots_iff options (m.startIndex i) ops
  unfold EveryResetTakesEffect
  simp only [filterMap_rounds, expandLoadPdi_loaded h hops hout]
  rcases closing_cases (captureResets options m.devices none (m.startIndex i) ops) with
    hnone | ⟨parity, hparity, hsome, hone⟩
  · rw [hnone, List.append_nil, takesEffect_rounds_iff hbinary, hchain]
    exact ⟨fun h => ⟨h.1, List.forall_mem_nil _, fun _ => h.2⟩, fun h => ⟨h.kept, h.wrapped rfl⟩⟩
  · have hslots : slots options (m.startIndex i) ops ≠ [] := by
      intro hnil
      rw [captureResets_of_slots hnil none] at hsome
      cases hsome
    have hall : ∀ slot ∈ slots options (m.startIndex i) ops ++ [.reset parity], slot.Binary := by
      intro slot hslot
      rcases List.mem_append.mp hslot with hslot | hslot
      · exact hbinary slot hslot
      · rw [List.mem_singleton.mp hslot]
        exact hparity
    rw [hone, takesEffect_rounds_iff hall, alternates_iff hslots, hchain]
    constructor
    · rintro ⟨hkept, hclosed⟩
      exact ⟨hkept, List.forall_mem_singleton.mpr hclosed, fun hnil => by cases hnil⟩
    · intro h
      exact ⟨h.kept, h.closed _ List.mem_cons_self⟩

/-! ## Sequences of one mode -/

theorem slots_eq_nil_iff {options : Options} {index : ℕ} {ops : List Op} :
    slots options index ops = [] ↔ loadCount ops = 0 := by
  induction ops with
  | nil => exact iff_of_true rfl rfl
  | cons op ops ih =>
    cases op with
    | loadPdi load => exact iff_of_false (List.cons_ne_nil _ _) (Nat.succ_ne_zero _)
    | writeConfig device | controlPackets device overlay | other => exact ih

theorem head?_slots {options : Options} {index : ℕ} {ops : List Op} {first : Slot}
    (h : first ∈ (slots options index ops).head?) :
    ∃ load, .loadPdi load ∈ ops ∧ first = load.slot options index := by
  induction ops with
  | nil => cases h
  | cons op ops ih =>
    cases op with
    | loadPdi load => exact ⟨load, List.mem_cons_self, (Option.some.inj h).symm⟩
    | writeConfig device | controlPackets device overlay | other =>
      obtain ⟨load, hload, hfirst⟩ := ih h
      exact ⟨load, List.mem_cons_of_mem _ hload, hfirst⟩

/-- The last slot of a sequence has the index of its last `load_pdi`. -/
theorem getLast?_slots {options : Options} {index : ℕ} {ops : List Op} {last : Slot}
    (h : last ∈ (slots options index ops).getLast?) :
    ∃ load, .loadPdi load ∈ ops ∧ last = load.slot options (index + loadCount ops - 1) := by
  induction ops generalizing index with
  | nil => cases h
  | cons op ops ih =>
    cases op with
    | loadPdi load =>
      by_cases hrest : slots options (index + 1) ops = []
      · rw [slots, hrest, List.getLast?_singleton] at h
        refine ⟨load, List.mem_cons_self, ?_⟩
        rw [loadCount, slots_eq_nil_iff.1 hrest]
        exact (Option.some.inj h).symm
      · rw [slots, List.getLast?_cons_of_ne_nil hrest] at h
        obtain ⟨next, hnext, hlast⟩ := ih h
        refine ⟨next, List.mem_cons_of_mem _ hnext, ?_⟩
        rw [hlast, loadCount]
        congr 1
        omega
    | writeConfig device | controlPackets device overlay | other =>
      obtain ⟨next, hnext, hlast⟩ := ih h
      exact ⟨next, List.mem_cons_of_mem _ hnext, hlast⟩

/-- In a sequence without a `load_pdi` that is left, only the ends can clash. -/
theorem isChain_of_inserted {options : Options} {index : ℕ} {ops : List Op}
    (h : ∀ slot ∈ slots options index ops, slot.loaded.inserted = true) :
    (slots options index ops).IsChain fun a b => a.loaded.inserted = false → ¬ a.Clash b := by
  refine List.IsChain.imp_of_mem_imp (fun a b ha _ _ hkept => ?_) (List.isChain_isInfix _)
  rw [h a ha] at hkept
  cases hkept

theorem LoadPdi.slot_of_resetDevice? {options : Options} {devices : List DeviceOp}
    {load : LoadPdi} (h : (load.resetDevice? options devices).isSome = true) (index : ℕ) :
    load.slot options index = .reset (index % 2) := by
  unfold resetDevice? at h
  unfold slot
  split_ifs at h with hmode
  · cases href : load.deviceRef with
    | none =>
      rw [href] at h
      cases h
    | some ref => rw [hmode]
  · cases h

theorem mem_slots {options : Options} {index : ℕ} {ops : List Op} {slot : Slot}
    (h : slot ∈ slots options index ops) :
    ∃ load i, .loadPdi load ∈ ops ∧ slot = load.slot options i := by
  induction ops generalizing index with
  | nil => cases h
  | cons op ops ih =>
    cases op with
    | loadPdi load =>
      rcases List.mem_cons.1 h with h | h
      · exact ⟨load, index, List.mem_cons_self, h⟩
      · obtain ⟨next, i, hnext, hslot⟩ := ih h
        exact ⟨next, i, List.mem_cons_of_mem _ hnext, hslot⟩
    | writeConfig device | controlPackets device overlay | other =>
      obtain ⟨next, i, hnext, hslot⟩ := ih h
      exact ⟨next, i, List.mem_cons_of_mem _ hnext, hslot⟩

theorem captureResets_parities {options : Options} {devices : List DeviceOp} {index : ℕ}
    {ops : List Op} (hops : ∀ load, .loadPdi load ∈ ops →
      (load.resetDevice? options devices).isSome = true) (info : Option ResetParity)
    (hcount : loadCount ops ≠ 0) :
    ∃ device, captureResets options devices info index ops =
      some ⟨(info.map ResetParity.firstParity).getD (index % 2),
        (index + loadCount ops - 1) % 2, device⟩ := by
  induction ops generalizing index info with
  | nil => exact absurd rfl hcount
  | cons op ops ih =>
    have hrest := fun load hload => hops load (List.mem_cons_of_mem _ hload)
    cases op with
    | loadPdi load =>
      obtain ⟨device, hdevice⟩ := Option.isSome_iff_exists.1 (hops load List.mem_cons_self)
      simp only [captureResets, hdevice]
      by_cases hzero : loadCount ops = 0
      · refine ⟨device.device, ?_⟩
        rw [captureResets_of_slots (slots_eq_nil_iff.2 hzero), loadCount, hzero]
        rfl
      · obtain ⟨type, htype⟩ := ih hrest (some (noteReset info index device.device)) hzero
        refine ⟨type, ?_⟩
        have hindex : index + (loadCount ops + 1) - 1 = index + 1 + loadCount ops - 1 := by omega
        rw [htype, loadCount, hindex]
        rfl
    | writeConfig device | controlPackets device overlay | other => exact ih hrest info hcount

theorem captureResets_of_none {options : Options} {devices : List DeviceOp} {index : ℕ}
    {ops : List Op} (hops : ∀ load, .loadPdi load ∈ ops →
      load.resetDevice? options devices = none) (info : Option ResetParity) :
    captureResets options devices info index ops = info := by
  induction ops generalizing index with
  | nil => rfl
  | cons op ops ih =>
    have hrest := fun load hload => hops load (List.mem_cons_of_mem _ hload)
    cases op with
    | loadPdi load =>
      simp only [captureResets, hops load List.mem_cons_self]
      exact ih hrest
    | writeConfig device | controlPackets device overlay | other => exact ih hrest

/-- **A sequence of resets of known devices** always alternates. -/
theorem alternates_of_resets {options : Options} {devices : List DeviceOp} {index : ℕ}
    {ops : List Op} (hops : ∀ load, .loadPdi load ∈ ops →
      (load.resetDevice? options devices).isSome = true) :
    Alternates (slots options index ops)
      (closing (captureResets options devices none index ops)) := by
  have hreset : ∀ slot ∈ slots options index ops, slot.loaded.inserted = true := fun slot hslot => by
    obtain ⟨load, i, hload, rfl⟩ := mem_slots hslot
    rw [LoadPdi.slot_of_resetDevice? (hops load hload)]
    rfl
  have hlast : ∀ last ∈ (slots options index ops).getLast?,
      last = .reset ((index + loadCount ops - 1) % 2) := fun last h => by
    obtain ⟨load, hload, rfl⟩ := getLast?_slots h
    exact LoadPdi.slot_of_resetDevice? (hops load hload) _
  have hfirst : ∀ first ∈ (slots options index ops).head?, first = .reset (index % 2) :=
    fun first h => by
      obtain ⟨load, hload, rfl⟩ := head?_slots h
      exact LoadPdi.slot_of_resetDevice? (hops load hload) _
  by_cases hzero : loadCount ops = 0
  · have hnil := (@slots_eq_nil_iff options index ops).2 hzero
    rw [captureResets_of_slots hnil, hnil]
    exact ⟨List.isChain_nil, List.forall_mem_nil _, fun _ _ h => by cases h⟩
  · obtain ⟨device, hcapture⟩ := captureResets_parities hops none hzero
    rw [hcapture, closing_some]
    refine ⟨isChain_of_inserted hreset, ?_, ?_⟩
    · intro reset hclosing
      split_ifs at hclosing with hparity
      · cases hclosing
      · rw [List.mem_singleton.1 hclosing]
        simp only [Option.map_none, Option.getD_none, not_not] at hparity ⊢
        constructor
        · intro last h
          rw [hlast last h]
          simp only [Slot.Clash]
          omega
        · intro first h
          rw [hfirst first h]
          simp only [Slot.Clash]
          omega
    · intro hclosing last h first h'
      split_ifs at hclosing with hparity
      rw [hlast last h, hfirst first h']
      exact fun hclash => hparity hclash.symm

/-- **A sequence of reloads by control packets** alternates exactly if their number is even. -/
theorem alternates_of_overlays {options : Options} {devices : List DeviceOp} {index : ℕ}
    {ops : List Op} (hops : ∀ load, .loadPdi load ∈ ops →
      load.deviceRef.isSome = true ∧ load.mode options = .ctrlpkt) :
    Alternates (slots options index ops)
      (closing (captureResets options devices none index ops)) ↔ Even (loadCount ops) := by
  have hslot : ∀ load, .loadPdi load ∈ ops → ∀ i, load.slot options i = .overlay (i % 2) :=
    fun load hload i => by
      obtain ⟨href, hmode⟩ := hops load hload
      obtain ⟨ref, href⟩ := Option.isSome_iff_exists.1 href
      unfold LoadPdi.slot
      rw [href, hmode]
  have hclosing : closing (captureResets options devices none index ops) = [] := by
    rw [captureResets_of_none fun load hload => ?_]
    · rfl
    · rw [LoadPdi.resetDevice?, (hops load hload).2]
      rfl
  have hinserted : ∀ slot ∈ slots options index ops, slot.loaded.inserted = true :=
    fun slot h => by
      obtain ⟨load, i, hload, rfl⟩ := mem_slots h
      rw [hslot load hload]
      rfl
  rw [hclosing, Nat.even_iff]
  constructor
  · intro h
    by_contra hodd
    have hne : slots options index ops ≠ [] := fun hnil => by
      rw [slots_eq_nil_iff.1 hnil] at hodd
      exact hodd rfl
    obtain ⟨load, hload, hlast⟩ := getLast?_slots (List.getLast?_eq_some_getLast hne)
    obtain ⟨load', hload', hfirst⟩ := head?_slots (List.head?_eq_some_head hne)
    refine h.wrapped rfl _ (List.getLast?_eq_some_getLast hne) _ (List.head?_eq_some_head hne) ?_
    rw [hlast, hfirst, hslot load hload, hslot load' hload']
    simp only [Slot.Clash]
    omega
  · intro heven
    refine ⟨isChain_of_inserted hinserted, List.forall_mem_nil _, fun _ last h first h' hclash => ?_⟩
    have hcount : loadCount ops ≠ 0 := fun hzero => by
      rw [slots_eq_nil_iff.2 hzero] at h
      cases h
    obtain ⟨load, hload, rfl⟩ := getLast?_slots h
    obtain ⟨load', hload', rfl⟩ := head?_slots h'
    rw [hslot load hload, hslot load' hload'] at hclash
    simp only [Slot.Clash] at hclash
    omega

/-- Reloads of two devices. -/
def streamed : List Op :=
  [.loadPdi { deviceRef := some "dev_a" }, .other, .loadPdi { deviceRef := some "dev_b" }]

theorem mem_streamed {load : LoadPdi} (h : .loadPdi load ∈ streamed) :
    load = { deviceRef := some "dev_a" } ∨ load = { deviceRef := some "dev_b" } := by
  simpa [streamed] using h

theorem streamed_alternates : Alternates (slots ⟨true, false⟩ 1 streamed)
    (closing (captureResets ⟨true, false⟩ [] none 1 streamed)) ↔ Even 2 :=
  alternates_of_overlays fun load h => by
    rcases mem_streamed h with rfl | rfl
    · exact ⟨rfl, rfl⟩
    · exact ⟨rfl, rfl⟩

theorem streamed_resets : Alternates (slots ⟨false, false⟩ 0 streamed)
    (closing (captureResets ⟨false, false⟩ [⟨"dev_a", 0, false⟩, ⟨"dev_b", 0, true⟩] none 0
      streamed)) :=
  alternates_of_resets fun load h => by
    rcases mem_streamed h with rfl | rfl
    · rfl
    · rfl

/-! ## Two sequences -/

def sampleReloads : Reloads where
  verifyReloadKeepsOverlay _ _ := .ok ()
  insertConfigOps _ _ := .ok ()
  inlineWriteConfig _ := .ok ()

/-- A device and the overlay; one sequence, which loads the device. -/
def sampleModule : Module where
  devices := [⟨"dev_a", 0, false⟩, ⟨kCtrlPktOverlayName, 0, false⟩]
  sequences := [[.loadPdi { deviceRef := some "dev_a" }]]

def resetLoad (name : String) : Emitted :=
  ⟨.loadPdi { deviceRef := some name, expandMode := some .none }, true⟩

theorem sampleModule_write32 : EveryResetTakesEffect
    [resetLoad "empty_0", ⟨.writeConfig "dev_a", true⟩, resetLoad "empty_1"] :=
  (@everyResetTakesEffect_iff ⟨false, false⟩ sampleReloads sampleModule _ rfl 0 _ _ rfl rfl).mpr
    ⟨by decide, by decide, by decide⟩

/-- **One reload by control packets**: every run loads the overlay that the run before loaded. -/
theorem sampleModule_ctrlpkt :
    expandLoadPdi ⟨true, false⟩ sampleReloads sampleModule =
        .ok [[resetLoad kCtrlPktOverlayName,
          ⟨.controlPackets "dev_a" kCtrlPktOverlayName, true⟩]] ∧
      ¬ EveryResetTakesEffect [resetLoad kCtrlPktOverlayName,
        ⟨.controlPackets "dev_a" kCtrlPktOverlayName, true⟩] := by
  refine ⟨rfl, fun h => ?_⟩
  have htwo := List.isChain_pair.mp (h 2)
  exact htwo rfl rfl

end MlirAie.Pdi
