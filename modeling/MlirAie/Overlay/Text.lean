import MlirAie.Lib.Text
import MlirAie.Overlay.Switch

/-!
# The text of a setting

* **`SettingValue.print_injective`**: the text of a setting tells its value.
-/

namespace MlirAie.Overlay

open Route Lib

theorem stringify_injective (a b : WireBundle) (h : a.stringify = b.stringify) : a = b := by
  cases a <;> cases b <;> first | rfl | exact absurd h (by decide)

theorem space_not_mem_stringify (a : WireBundle) : ' ' ∉ a.stringify.toList := by
  cases a <;> decide

theorem circuitFrom_injective {p q : Port}
    (h : (SettingValue.circuitFrom p).print = (SettingValue.circuitFrom q).print) : p = q := by
  simp only [SettingValue.print, String.append_assoc, String.append_right_inj] at h
  obtain ⟨hbundle, hchannel⟩ :=
    text_split " : " rfl (space_not_mem_stringify _) (space_not_mem_stringify _) h
  cases p
  cases q
  rw [Port.mk.injEq]
  exact ⟨stringify_injective _ _ hbundle, Nat.repr_injective hchannel⟩

theorem packetMaster_injective {a b : ℤ} {m n : ℕ} {k l : Bool}
    (h : (SettingValue.packetMaster a m k).print = (SettingValue.packetMaster b n l).print) :
    a = b ∧ m = n ∧ k = l := by
  simp only [SettingValue.print, String.append_assoc, String.append_right_inj] at h
  obtain ⟨ha, h⟩ := text_split "/" rfl (not_mem_toString_int rfl (by decide) a)
    (not_mem_toString_int rfl (by decide) b) h
  obtain ⟨hm, hk⟩ := text_split " " rfl (not_mem_toString_nat rfl m)
    (not_mem_toString_nat rfl n) h
  refine ⟨Int.repr_injective ha, Nat.repr_injective hm, ?_⟩
  cases k <;> cases l <;> first | rfl | exact absurd hk (by decide)

theorem rule_injective {a b m n : ℤ} {r s : AMSel}
    (h : (SettingValue.rule a m r).print = (SettingValue.rule b n s).print) :
    a = b ∧ m = n ∧ r = s := by
  simp only [SettingValue.print, String.append_assoc] at h
  obtain ⟨ha, h⟩ := text_split "/" rfl (not_mem_toString_int rfl (by decide) a)
    (not_mem_toString_int rfl (by decide) b) h
  obtain ⟨hm, h⟩ := text_split ">" rfl (not_mem_toString_int rfl (by decide) m)
    (not_mem_toString_int rfl (by decide) n) h
  obtain ⟨hr, hs⟩ := text_split "." rfl (not_mem_toString_nat rfl _)
    (not_mem_toString_nat rfl _) h
  cases r
  cases s
  rw [AMSel.mk.injEq]
  exact ⟨Int.repr_injective ha, Int.repr_injective hm, Nat.repr_injective hr,
    Nat.repr_injective hs⟩

/-- The text of a rule starts with a number. -/
theorem rule_ne {a m : ℤ} {r : AMSel} {w : String} {c : Char} (hw : w.toList.head? = some c)
    (hc : c.isDigit = false) (hm : c ≠ '-') : (SettingValue.rule a m r).print ≠ w := by
  rintro rfl
  simp only [SettingValue.print, String.toList_append, List.append_assoc] at hw
  cases hl : (toString a).toList with
  | nil => exact toString_int_ne_nil a hl
  | cons d l =>
    rw [hl, List.cons_append, List.head?_cons, Option.some.injEq] at hw
    have hmem : c ∈ (toString a).toList := by
      rw [hl, hw]
      exact List.mem_cons_self
    exact not_mem_toString_int hc hm a hmem

/-- **The text of a setting tells its value.** -/
theorem SettingValue.print_injective {v w : SettingValue Port} (h : v.print = w.print) :
    v = w := by
  have hcircuit : ∀ p, (SettingValue.circuitFrom p).print.toList.head? = some 'c' := by
    simp [SettingValue.print]
  have hpacket : ∀ a m k, (SettingValue.packetMaster a m k).print.toList.head? = some 'p' := by
    simp [SettingValue.print]
  cases v <;> cases w
  case circuitFrom.circuitFrom => rw [circuitFrom_injective h]
  case packetMaster.packetMaster =>
    obtain ⟨rfl, rfl, rfl⟩ := packetMaster_injective h
    rfl
  case rule.rule =>
    obtain ⟨rfl, rfl, rfl⟩ := rule_injective h
    rfl
  case circuit.circuit => rfl
  case packet.packet => rfl
  case rule.circuitFrom => exact absurd h (rule_ne (hcircuit _) rfl (by decide))
  case rule.circuit => exact absurd h (rule_ne rfl rfl (by decide))
  case rule.packetMaster => exact absurd h (rule_ne (hpacket _ _ _) rfl (by decide))
  case rule.packet => exact absurd h (rule_ne rfl rfl (by decide))
  case circuitFrom.rule => exact absurd h.symm (rule_ne (hcircuit _) rfl (by decide))
  case circuit.rule => exact absurd h.symm (rule_ne rfl rfl (by decide))
  case packetMaster.rule => exact absurd h.symm (rule_ne (hpacket _ _ _) rfl (by decide))
  case packet.rule => exact absurd h.symm (rule_ne rfl rfl (by decide))
  all_goals
    -- the words differ, or only one text has a space after its word
    have hl := congrArg String.toList h
    simp [SettingValue.print] at hl

end MlirAie.Overlay
