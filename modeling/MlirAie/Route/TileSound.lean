import MlirAie.Route.Tile

/-!
# Tile plans are sound

Every round of the planning sees the others only through the amsels they took and the arbiters they
exclude, which is enough for the plans to fit together.

* `PacketFlowRouting.PinsTied`: the pinned rules put no master port on two arbiters;
* `ArbiterPlan.Sound.takeSlave`, `ArbiterPlan.Sound.insert`: sound plans, extended;
* **`PacketFlowRouting.planTile_sound`**: the plan of a tile is sound, and tied where the pins are.
-/

namespace MlirAie.Route

open Lib

namespace ArbiterPlan

variable {plan rested : ArbiterPlan} {P Q : ArbiterProblem} {f : SlaveFlow} {x : ℕ}

theorem amsel_eq (h : plan.slaveAmsels[f.key]? = some x) : plan.amsel f = x := by
  rw [amsel, Std.TreeMap.getD_eq_getD_getElem?, h, Option.getD_some]

theorem Sound.masters_eq (h : plan.Sound P) {g : SlaveFlow} (hf : f ∈ P.flows) (hg : g ∈ P.flows)
    (hfx : plan.slaveAmsels[f.key]? = some x) (hgx : plan.slaveAmsels[g.key]? = some x) :
    f.masters = g.masters := by
  obtain ⟨y, hfy, hf⟩ := h.routed f hf
  obtain ⟨z, hgz, hg⟩ := h.routed g hg
  rw [hfx, Option.some.injEq] at hfy
  rw [hgx, Option.some.injEq] at hgz
  rw [← hfy] at hf
  rw [← hgz, hf] at hg
  exact Option.some.inj hg

/-- What a plan promises, it promises of the flows in any order. -/
theorem Sound.congr (h : plan.Sound P) {flows : List SlaveFlow}
    (hmem : ∀ f, f ∈ flows ↔ f ∈ P.flows) : plan.Sound { P with flows := flows } where
  routed f hf := h.routed f ((hmem f).1 hf)
  used y M hy := by
    obtain ⟨f, hf, hM⟩ := h.used y M hy
    exact ⟨f, (hmem f).2 hf, hM⟩
  keys k hk := by
    obtain ⟨f, hf, hkey⟩ := h.keys k hk
    exact ⟨f, (hmem f).2 hf, hkey⟩
  unreserved := h.unreserved
  unexcluded f hf := h.unexcluded f ((hmem f).1 hf)
  apart f hf g hg := h.apart f ((hmem f).1 hf) g ((hmem g).1 hg)

theorem Sound.takeSlave (h : plan.Sound P) (hsymm : ∀ f g, P.conflict f g = P.conflict g f)
    (hkey : f.key ∉ P.flows.map SlaveFlow.key) (hx : plan.amselMasters[x]? = some f.masters)
    (hexcluded : P.excluded f (x % P.numArbiters) = false)
    (hapart : ∀ g ∈ P.flows, plan.amsel g % P.numArbiters = x % P.numArbiters →
      g.slave ≠ f.slave → P.conflict f g = false) :
    (plan.takeSlave f x).Sound { P with flows := P.flows ++ [f] } := by
  have hself : (plan.takeSlave f x).slaveAmsels[f.key]? = some x :=
    Std.TreeMap.getElem?_insert_self
  have hother : ∀ g ∈ P.flows, (plan.takeSlave f x).slaveAmsels[g.key]? =
      plan.slaveAmsels[g.key]? := by
    intro g hg
    have hne : f.key ≠ g.key := fun he => hkey (he ▸ List.mem_map_of_mem hg)
    rw [ArbiterPlan.takeSlave, Std.TreeMap.getElem?_insert,
      if_neg fun he => hne (compare_eq_iff_eq.1 he)]
  have hmem : ∀ g, g ∈ P.flows ++ [f] → g ∈ P.flows ∨ g = f := fun g hg =>
    (List.mem_append.1 hg).imp_right List.mem_singleton.1
  have hclash : ∀ g ∈ P.flows, ∀ y, plan.slaveAmsels[g.key]? = some y → g.slave ≠ f.slave →
      P.conflict f g = true → y % P.numArbiters ≠ x % P.numArbiters := by
    intro g hg y hy hslave hconflict heq
    have hfalse := hapart g hg (by rw [amsel_eq hy]; exact heq) hslave
    rw [hconflict] at hfalse
    cases hfalse
  constructor
  · intro g hg
    rcases hmem g hg with hg | rfl
    · obtain ⟨y, hy, hmasters⟩ := h.routed g hg
      exact ⟨y, (hother g hg).trans hy, hmasters⟩
    · exact ⟨x, hself, hx⟩
  · intro y M hy
    obtain ⟨g, hg, hM⟩ := h.used y M hy
    exact ⟨g, List.mem_append_left _ hg, hM⟩
  · intro k hk
    rcases Std.TreeMap.mem_insert.1 hk with he | hk
    · exact ⟨f, List.mem_append_right _ (List.mem_singleton_self f), compare_eq_iff_eq.1 he⟩
    · obtain ⟨g, hg, hgk⟩ := h.keys k hk
      exact ⟨g, List.mem_append_left _ hg, hgk⟩
  · exact h.unreserved
  · intro g hg y hy
    rcases hmem g hg with hg | rfl
    · exact h.unexcluded g hg y ((hother g hg).symm.trans hy)
    · rw [hself, Option.some.injEq] at hy
      exact hy ▸ hexcluded
  · intro g hg g' hg' hslave hconflict y z hy hz
    rcases hmem g hg with hgP | rfl
    · rw [hother g hgP] at hy
      rcases hmem g' hg' with hgP' | rfl
      · rw [hother g' hgP'] at hz
        exact h.apart g hgP g' hgP' hslave hconflict y z hy hz
      · rw [hself, Option.some.injEq] at hz
        subst hz
        exact hclash g hgP y hy hslave (hsymm _ _ ▸ hconflict)
    · rw [hself, Option.some.injEq] at hy
      subst hy
      rcases hmem g' hg' with hg' | rfl
      · rw [hother g' hg'] at hz
        exact (hclash g' hg' z hz (Ne.symm hslave) hconflict).symm
      · exact absurd rfl hslave

/-- **Sound plans fit together** where the second keeps off the amsels of the first, and off the
arbiters of flows of the first that its own conflict with. -/
theorem Sound.insert (h : plan.Sound P) (h' : rested.Sound Q)
    (hn : Q.numArbiters = P.numArbiters) (hconf : Q.conflict = P.conflict)
    (hsymm : ∀ f g, P.conflict f g = P.conflict g f)
    (hkeys : ∀ f ∈ P.flows, ∀ g ∈ Q.flows, f.key ≠ g.key)
    (hreserved : ∀ y, y ∉ Q.reservedAmsels → y ∉ P.reservedAmsels ∧ y ∉ plan.amselMasters)
    (hexcluded : ∀ g ∈ Q.flows, ∀ a, Q.excluded g a = false → P.excluded g a = false ∧
      ∀ f ∈ P.flows, plan.amsel f % P.numArbiters = a → f.slave ≠ g.slave →
        P.conflict g f = false) :
    (plan.insert rested).Sound { P with flows := P.flows ++ Q.flows } := by
  have hleft : ∀ f ∈ P.flows, (plan.insert rested).slaveAmsels[f.key]? =
      plan.slaveAmsels[f.key]? := by
    intro f hf
    obtain ⟨y, hy, _⟩ := h.routed f hf
    rw [ArbiterPlan.insert, Std.TreeMap.getElem?_union, hy, Option.some_or]
  have hright : ∀ g ∈ Q.flows, (plan.insert rested).slaveAmsels[g.key]? =
      rested.slaveAmsels[g.key]? := by
    intro g hg
    have hnone : plan.slaveAmsels[g.key]? = none := by
      rw [← Option.not_isSome_iff_eq_none, ← Std.TreeMap.mem_iff_isSome_getElem?]
      intro hmem
      obtain ⟨f, hf, hkey⟩ := h.keys _ hmem
      exact hkeys f hf g hg hkey
    rw [ArbiterPlan.insert, Std.TreeMap.getElem?_union, hnone, Option.none_or]
  have hmasters : ∀ (y : ℕ) (M : List Port), (plan.insert rested).amselMasters[y]? = some M ↔
      plan.amselMasters[y]? = some M ∨ rested.amselMasters[y]? = some M := by
    intro y M
    rw [ArbiterPlan.insert, Std.TreeMap.getElem?_union, Option.or_eq_some_iff]
    refine ⟨Or.imp_right And.right, fun hy => hy.imp_right fun hy => ⟨?_, hy⟩⟩
    rw [← Option.not_isSome_iff_eq_none, ← Std.TreeMap.mem_iff_isSome_getElem?]
    exact (hreserved y (h'.unreserved y M hy)).2
  have hclash : ∀ f ∈ P.flows, ∀ g ∈ Q.flows, ∀ y z, plan.slaveAmsels[f.key]? = some y →
      rested.slaveAmsels[g.key]? = some z → f.slave ≠ g.slave → P.conflict g f = true →
        y % P.numArbiters ≠ z % P.numArbiters := by
    intro f hf g hg y z hy hz hslave hconflict heq
    have hfalse := (hexcluded g hg _ (h'.unexcluded g hg z hz)).2 f hf
      (by rw [amsel_eq hy, heq, hn]) hslave
    rw [hconflict] at hfalse
    cases hfalse
  constructor
  · intro f hf
    rcases List.mem_append.1 hf with hf | hf
    · obtain ⟨y, hy, hM⟩ := h.routed f hf
      exact ⟨y, (hleft f hf).trans hy, (hmasters y _).2 (.inl hM)⟩
    · obtain ⟨y, hy, hM⟩ := h'.routed f hf
      exact ⟨y, (hright f hf).trans hy, (hmasters y _).2 (.inr hM)⟩
  · intro y M hy
    rcases (hmasters y M).1 hy with hy | hy
    · obtain ⟨f, hf, hM⟩ := h.used y M hy
      exact ⟨f, List.mem_append_left _ hf, hM⟩
    · obtain ⟨f, hf, hM⟩ := h'.used y M hy
      exact ⟨f, List.mem_append_right _ hf, hM⟩
  · intro k hk
    rcases Std.TreeMap.mem_union_iff.1 hk with hk | hk
    · obtain ⟨f, hf, hkey⟩ := h'.keys k hk
      exact ⟨f, List.mem_append_right _ hf, hkey⟩
    · obtain ⟨f, hf, hkey⟩ := h.keys k hk
      exact ⟨f, List.mem_append_left _ hf, hkey⟩
  · intro y M hy
    rcases (hmasters y M).1 hy with hy | hy
    · exact h.unreserved y M hy
    · exact (hreserved y (h'.unreserved y M hy)).1
  · intro f hf y hy
    rcases List.mem_append.1 hf with hf | hf
    · exact h.unexcluded f hf y ((hleft f hf).symm.trans hy)
    · have hx := h'.unexcluded f hf y ((hright f hf).symm.trans hy)
      rw [hn] at hx
      exact (hexcluded f hf _ hx).1
  · intro f hf g hg hslave hconflict y z hy hz
    rcases List.mem_append.1 hf with hf | hf
    · rw [hleft f hf] at hy
      rcases List.mem_append.1 hg with hg | hg
      · rw [hleft g hg] at hz
        exact h.apart f hf g hg hslave hconflict y z hy hz
      · rw [hright g hg] at hz
        exact hclash f hf g hg y z hy hz hslave (hsymm _ _ ▸ hconflict)
    · rw [hright f hf] at hy
      rcases List.mem_append.1 hg with hg | hg
      · rw [hleft g hg] at hz
        exact (hclash g hg f hf z y hz hy (Ne.symm hslave) hconflict).symm
      · rw [hright g hg] at hz
        have := h'.apart f hf g hg hslave (hconf ▸ hconflict) y z hy hz
        rwa [hn] at this

/-- Plans that tie each master port they both select to one arbiter. -/
theorem Tied.insert {n : ℕ} (h : plan.Tied n) (h' : rested.Tied n)
    (hcross : ∀ (x y : ℕ) (M N : List Port) (p : Port), plan.amselMasters[x]? = some M →
      rested.amselMasters[y]? = some N → p ∈ M → p ∈ N → x % n = y % n) :
    (plan.insert rested).Tied n := by
  have hmasters : ∀ (x : ℕ) (M : List Port), (plan.insert rested).amselMasters[x]? = some M →
      plan.amselMasters[x]? = some M ∨ rested.amselMasters[x]? = some M := by
    intro x M hx
    rw [ArbiterPlan.insert, Std.TreeMap.getElem?_union, Option.or_eq_some_iff] at hx
    exact hx.imp_right And.right
  intro x y M N p hx hy hpM hpN
  rcases hmasters x M hx with hx | hx
  · rcases hmasters y N hy with hy | hy
    · exact h x y M N p hx hy hpM hpN
    · exact hcross x y M N p hx hy hpM hpN
  · rcases hmasters y N hy with hy | hy
    · exact (hcross y x N M p hy hx hpN hpM).symm
    · exact h' x y M N p hx hy hpM hpN

end ArbiterPlan

namespace PacketFlowRouting

open ArbiterPlan

variable {R : PacketFlowRouting} {facts : SearchFacts} {t : TileID}

/-! ## The flows of a tile -/

theorem conflictingStreams_isSome {f g : SlaveFlow} :
    (R.conflictingStreams t f g).isSome = true ↔ ∃ s ∈ R.slaveFlowStreams t f.key,
      ∃ s' ∈ R.slaveFlowStreams t g.key, R.conflicts.conflict s s' = true := by
  rw [conflictingStreams, List.findSome?_isSome_iff]
  simp only [Option.isSome_map, List.find?_isSome]

theorem conflict_comm (f g : SlaveFlow) : R.conflict facts t f g = R.conflict facts t g f := by
  have hstreams : (R.conflictingStreams t f g).isSome = (R.conflictingStreams t g f).isSome := by
    rw [Bool.eq_iff_iff, conflictingStreams_isSome, conflictingStreams_isSome]
    constructor
    all_goals
      rintro ⟨s, hs, s', hs', h⟩
      exact ⟨s', hs', s, hs, R.conflicts.conflict_comm s s' ▸ h⟩
  rw [conflict, conflict, hstreams, min_comm, max_comm]

theorem nodup_keys (R : PacketFlowRouting) (t : TileID) :
    ((R.tileFlows t).map SlaveFlow.key).Nodup :=
  (R.flowsSorted t).imp ne_of_lt

/-- The pinned rules put no master port of the overlay's flows on two arbiters. -/
def PinsTied (R : PacketFlowRouting) (t : TileID) : Prop :=
  ∀ f ∈ R.overlay t, ∀ g ∈ R.overlay t, ∀ p ∈ f.masters, p ∈ g.masters → ∀ r r',
    R.overlayRule t f = some r → R.overlayRule t g = some r' →
      r.amsel % R.numArbiters = r'.amsel % R.numArbiters

/-! ## The pinned overlay -/

/-- What keeping pinned amsels keeps of the flows done so far. -/
structure Kept (R : PacketFlowRouting) (facts : SearchFacts) (t : TileID) (done : List SlaveFlow)
    (kept : ArbiterPlan) : Prop where
  routed : ∀ f ∈ done, ∃ r, R.overlayRule t f = some r ∧
    kept.slaveAmsels[f.key]? = some r.amsel ∧ kept.amselMasters[r.amsel]? = some f.masters ∧
      facts.excluded t f (r.amsel % R.numArbiters) = false
  used : ∀ (x : ℕ) (M : List Port), kept.amselMasters[x]? = some M → x ∉ R.reservedAmsels t ∧
    ∃ f ∈ done, f.masters = M ∧ ∃ r, R.overlayRule t f = some r ∧ r.amsel = x
  keys : ∀ k, k ∈ kept.slaveAmsels → ∃ f ∈ done, f.key = k

theorem keepFlow_kept {done : List SlaveFlow} {kept kept' : ArbiterPlan} {f : SlaveFlow}
    (h : R.Kept facts t done kept) (hkey : f.key ∉ done.map SlaveFlow.key)
    (hkeep : R.keepFlow facts t kept f = .ok kept') : R.Kept facts t (done ++ [f]) kept' := by
  rw [keepFlow] at hkeep
  cases hrule : R.overlayRule t f with
  | none =>
    rw [hrule] at hkeep
    cases hkeep
  | some r =>
    simp only [hrule] at hkeep
    split_ifs at hkeep with hexcluded hreserved hmasters
    cases hkeep
    rw [not_not, Std.TreeMap.getD_eq_getD_getElem?] at hmasters
    have hget : ∀ x : ℕ, (kept.amselMasters.insertIfNew r.amsel f.masters)[x]? =
        if r.amsel = x then some f.masters else kept.amselMasters[x]? := by
      intro x
      rw [Std.TreeMap.getElem?_insertIfNew]
      simp only [compare_eq_iff_eq]
      by_cases hx : r.amsel = x
      · subst hx
        by_cases hmem : r.amsel ∈ kept.amselMasters
        · rw [if_neg fun hn => hn.2 hmem, if_pos rfl]
          obtain ⟨M, hM⟩ := Option.isSome_iff_exists.1
            (Std.TreeMap.mem_iff_isSome_getElem?.1 hmem)
          rw [hM, Option.getD_some] at hmasters
          rw [hM, hmasters]
        · rw [if_pos ⟨rfl, hmem⟩, if_pos rfl]
      · rw [if_neg fun hn => hx hn.1, if_neg hx]
    have hslave : ∀ g ∈ done, (kept.slaveAmsels.insert f.key r.amsel)[g.key]? =
        kept.slaveAmsels[g.key]? := by
      intro g hg
      rw [Std.TreeMap.getElem?_insert, if_neg]
      exact fun he => hkey (compare_eq_iff_eq.1 he ▸ List.mem_map_of_mem hg)
    constructor
    · intro g hg
      rcases List.mem_append.1 hg with hg | hg
      · obtain ⟨r', hr', hgx, hgM, hgex⟩ := h.routed g hg
        refine ⟨r', hr', (hslave g hg).trans hgx, ?_, hgex⟩
        rw [hget]
        split_ifs with hx
        · rw [← hx] at hgM
          rw [hgM, Option.getD_some] at hmasters
          rw [hmasters]
        · exact hgM
      · obtain rfl := List.mem_singleton.1 hg
        refine ⟨r, hrule, Std.TreeMap.getElem?_insert_self, ?_, Bool.not_eq_true _ ▸ hexcluded⟩
        rw [hget, if_pos rfl]
    · intro x M hx
      rw [hget] at hx
      split_ifs at hx with heq
      · cases hx
        exact ⟨heq ▸ hreserved, f, List.mem_append_right _ (List.mem_singleton_self f), rfl, r,
          hrule, heq⟩
      · obtain ⟨hres, g, hg, hgM⟩ := h.used x M hx
        exact ⟨hres, g, List.mem_append_left _ hg, hgM⟩
    · intro k hk
      rcases Std.TreeMap.mem_insert.1 hk with he | hk
      · exact ⟨f, List.mem_append_right _ (List.mem_singleton_self f), compare_eq_iff_eq.1 he⟩
      · obtain ⟨g, hg, hgk⟩ := h.keys k hk
        exact ⟨g, List.mem_append_left _ hg, hgk⟩

theorem foldlM_kept {fs done : List SlaveFlow} {kept kept' : ArbiterPlan}
    (h : R.Kept facts t done kept) (hkeys : ((done ++ fs).map SlaveFlow.key).Nodup)
    (hfold : fs.foldlM (R.keepFlow facts t) kept = .ok kept') :
    R.Kept facts t (done ++ fs) kept' := by
  induction fs generalizing done kept with
  | nil =>
    cases hfold
    rwa [List.append_nil]
  | cons f fs ih =>
    rw [List.foldlM_cons] at hfold
    cases hkeep : R.keepFlow facts t kept f with
    | error e =>
      rw [hkeep] at hfold
      cases hfold
    | ok next =>
      rw [hkeep] at hfold
      have hkey : f.key ∉ done.map SlaveFlow.key := by
        rw [List.map_append, List.map_cons, List.nodup_middle, List.nodup_cons] at hkeys
        exact fun hmem => hkeys.1 (List.mem_append_left _ hmem)
      rw [List.append_cons] at hkeys ⊢
      exact ih (keepFlow_kept h hkey hkeep) hkeys hfold

/-- The overlay on amsels no two flows of which can deadlock. -/
theorem Kept.sound {kept : ArbiterPlan} (h : R.Kept facts t (R.overlay t) kept)
    (hshared : R.sharedPinned facts t kept = none) :
    kept.Sound (R.problem facts t (R.overlay t)) := by
  have hshare : ∀ p ∈ pairs (R.overlay t), R.shareArbiter facts t kept p.1 p.2 = false := by
    intro p hp
    rw [← Bool.not_eq_true]
    exact List.find?_eq_none.1 hshared p hp
  have hamsel : ∀ f ∈ R.overlay t, ∀ x, kept.slaveAmsels[f.key]? = some x →
      facts.excluded t f (x % R.numArbiters) = false := by
    intro f hf x hx
    obtain ⟨r, _, hr, _, hexcluded⟩ := h.routed f hf
    rw [hx, Option.some.injEq] at hr
    exact hr ▸ hexcluded
  constructor
  · intro f hf
    obtain ⟨r, _, hr, hM, _⟩ := h.routed f hf
    exact ⟨r.amsel, hr, hM⟩
  · intro x M hx
    obtain ⟨_, f, hf, hM, _⟩ := h.used x M hx
    exact ⟨f, hf, hM⟩
  · exact h.keys
  · exact fun x M hx => (h.used x M hx).1
  · exact hamsel
  · intro f hf g hg hslave hconflict x y hx hy heq
    have hne : f ≠ g := fun he => hslave (he ▸ rfl)
    rcases mem_pairs_or hf hg hne with hp | hp
    · have hfalse := hshare _ hp
      rw [shareArbiter, amsel_eq hx, amsel_eq hy] at hfalse
      have hconflict' : R.conflict facts t f g = true := hconflict
      have heq' : x % R.numArbiters = y % R.numArbiters := heq
      simp [heq', hslave, hconflict'] at hfalse
    · have hfalse := hshare _ hp
      rw [shareArbiter, amsel_eq hx, amsel_eq hy, conflict_comm] at hfalse
      have hconflict' : R.conflict facts t f g = true := hconflict
      have heq' : x % R.numArbiters = y % R.numArbiters := heq
      simp [heq', hslave.symm, hconflict'] at hfalse

/-- Amsels the pins tie. -/
theorem Kept.tied {kept : ArbiterPlan} (h : R.Kept facts t (R.overlay t) kept)
    (hpins : R.PinsTied t) : kept.Tied R.numArbiters := by
  intro x y M N p hx hy hpM hpN
  obtain ⟨_, f, hf, rfl, r, hr, rfl⟩ := h.used x M hx
  obtain ⟨_, g, hg, rfl, r', hr', rfl⟩ := h.used y N hy
  exact hpins f hf g hg p hpM hpN r r' hr hr'

/-- **The overlay on its pinned amsels.** -/
theorem keepPinned_sound {kept : ArbiterPlan} (h : R.keepPinned facts t = .ok kept) :
    kept.Sound (R.problem facts t (R.overlay t)) ∧ (R.PinsTied t → kept.Tied R.numArbiters) := by
  rw [keepPinned] at h
  cases hfold : (R.overlay t).foldlM (R.keepFlow facts t) {} with
  | error e =>
    rw [hfold] at h
    cases h
  | ok kept' =>
    have hempty : R.Kept facts t [] {} :=
      ⟨fun f hf => (List.not_mem_nil hf).elim, fun x M hx => by simp at hx,
        fun k hk => by simp at hk⟩
    have hkept := foldlM_kept hempty ((R.nodup_keys t).sublist (List.filter_sublist.map _)) hfold
    simp only [hfold, Bind.bind, Except.bind] at h
    cases hshared : R.sharedPinned facts t kept' with
    | some p =>
      rw [hshared] at h
      cases h
    | none =>
      rw [hshared] at h
      cases h
      exact ⟨Kept.sound hkept hshared, hkept.tied⟩

/-! ## The other flows, around a plan -/

theorem sameMasters_eq_some {plan : ArbiterPlan} {f : SlaveFlow} {x : ℕ}
    (h : plan.sameMasters f = some x) : plan.amselMasters[x]? = some f.masters := by
  rw [sameMasters, Option.map_eq_some_iff] at h
  obtain ⟨⟨y, M⟩, hfind, rfl⟩ := h
  have hM := List.find?_some hfind
  rw [decide_eq_true_eq] at hM
  subst hM
  exact Std.TreeMap.mem_toList_iff_getElem?_eq_some.1 (List.mem_of_find?_eq_some hfind)

/-- What planning around a plan keeps of the flows done so far. -/
structure Around (R : PacketFlowRouting) (facts : SearchFacts) (t : TileID) (plan : ArbiterPlan)
    (flows : List SlaveFlow) (s : AroundState) : Prop where
  masters : s.plan.amselMasters = plan.amselMasters
  perm : (s.placed ++ s.rest).Perm flows
  sound : s.blocking = [] → s.plan.Sound (R.problem facts t s.placed)

theorem Around.tied {plan : ArbiterPlan} {flows : List SlaveFlow} {s : AroundState}
    (h : R.Around facts t plan flows s) (htied : plan.Tied R.numArbiters) :
    s.plan.Tied R.numArbiters := by
  intro x y M N p hx hy
  rw [h.masters] at hx hy
  exact htied x y M N p hx hy

theorem takeSame_around {plan : ArbiterPlan} {planned flows : List SlaveFlow} {s : AroundState}
    {f : SlaveFlow} (h : R.Around facts t plan flows s)
    (hkey : f.key ∉ flows.map SlaveFlow.key) :
    R.Around facts t plan (flows ++ [f]) (R.takeSame facts t planned s f) := by
  rw [takeSame]
  cases hsame : s.plan.sameMasters f with
  | none =>
    refine ⟨h.masters, ?_, h.sound⟩
    rw [← List.append_assoc]
    exact h.perm.append_right [f]
  | some x =>
    refine ⟨h.masters, ?_, fun hblocking => ?_⟩
    · show (s.placed ++ [f] ++ s.rest).Perm (flows ++ [f])
      rw [List.append_assoc]
      refine (List.perm_append_comm.append_left s.placed).trans ?_
      rw [← List.append_assoc]
      exact h.perm.append_right [f]
    · simp only [List.append_eq_nil_iff, List.map_eq_nil_iff, List.filter_eq_nil_iff] at hblocking
      obtain ⟨⟨hbefore, hclash⟩, hexcluded⟩ := hblocking
      have hfresh : f.key ∉ s.placed.map SlaveFlow.key := fun hmem =>
        hkey ((h.perm.map _).mem_iff.1 (by
          rw [List.map_append]
          exact List.mem_append_left _ hmem))
      refine (h.sound hbefore).takeSlave conflict_comm hfresh (sameMasters_eq_some hsame) ?_ ?_
      · show facts.excluded t f (x % R.numArbiters) = false
        by_contra hex
        rw [Bool.not_eq_false] at hex
        rw [if_pos hex] at hexcluded
        cases hexcluded
      · intro g hg harbiter hslave
        rw [← Bool.not_eq_true]
        intro hconflict
        refine hclash g hg ?_
        have hconflict' : R.conflict facts t f g = true := hconflict
        have harbiter' : s.plan.amsel g % R.numArbiters = x % R.numArbiters := harbiter
        simp [harbiter', hslave, hconflict']

theorem foldl_takeSame_around {plan : ArbiterPlan} {pending flows : List SlaveFlow}
    {s : AroundState} (planned : List SlaveFlow) (h : R.Around facts t plan flows s)
    (hkeys : ((flows ++ pending).map SlaveFlow.key).Nodup) :
    R.Around facts t plan (flows ++ pending)
      (pending.foldl (R.takeSame facts t planned) s) := by
  induction pending generalizing flows s with
  | nil => rwa [List.append_nil]
  | cons f fs ih =>
    have hkey : f.key ∉ flows.map SlaveFlow.key := by
      rw [List.map_append, List.map_cons, List.nodup_middle, List.nodup_cons] at hkeys
      exact fun hmem => hkeys.1 (List.mem_append_left _ hmem)
    rw [List.append_cons] at hkeys ⊢
    exact ih (takeSame_around h hkey) hkeys

theorem headI_masters (f : SlaveFlow) : f.masters.headI = f.front := by
  obtain ⟨_, _, masters, _, _, hne⟩ := f
  cases masters with
  | nil => exact absurd rfl hne
  | cons m ms => rfl

theorem mod_eq_of_not_excludedAround {s : AroundState} {f g : SlaveFlow} {x a : ℕ} {p : Port}
    (hf : f ∈ R.tileFlows t) (hg : g ∈ R.tileFlows t) (hpf : p ∈ f.masters) (hpg : p ∈ g.masters)
    (hx : s.plan.amselMasters[x]? = some f.masters)
    (h : R.excludedAround facts t s g a = false) : x % R.numArbiters = a := by
  have hmem : x % R.numArbiters ∈ R.tiedArbiters t s.plan (tiedMasters (R.tileFlows t) g.front) := by
    rw [tiedArbiters, List.mem_toFinset, List.mem_map]
    refine ⟨(x, f.masters), List.mem_filter.2 ⟨?_, ?_⟩, rfl⟩
    · exact Std.TreeMap.mem_toList_iff_getElem?_eq_some.2 hx
    · rw [decide_eq_true_eq, headI_masters]
      exact tiedMasters_front_eq hf hg hpf hpg
  simp only [excludedAround, Bool.or_eq_false_iff, decide_eq_false_iff_not] at h
  have htied := h.1.2
  rw [not_and, not_or, not_lt, not_not] at htied
  obtain ⟨hcard, ha⟩ := htied (Finset.ne_empty_of_mem hmem)
  exact Finset.card_le_one.1 hcard _ hmem _ ha

/-- **The other flows, around a sound plan.** -/
theorem around_sound {plan plan' : ArbiterPlan} {planned pending : List SlaveFlow}
    (h : R.around facts t plan planned pending = .ok plan')
    (hplan : plan.Sound (R.problem facts t planned))
    (hkeys : ((planned ++ pending).map SlaveFlow.key).Nodup)
    (hflows : ∀ f ∈ planned ++ pending, f ∈ R.tileFlows t) :
    plan'.Sound (R.problem facts t (planned ++ pending)) ∧
      (plan.Tied R.numArbiters → plan'.Tied R.numArbiters) := by
  have hstart : R.Around facts t plan planned { plan, placed := planned } :=
    ⟨rfl, by rw [List.append_nil], fun _ => hplan⟩
  have haround := foldl_takeSame_around planned hstart hkeys
  rw [around] at h
  set s := pending.foldl (R.takeSame facts t planned) { plan, placed := planned }
  split_ifs at h with hblocking hrest
  · cases h
    have hsound := haround.sound (not_not.1 hblocking)
    have hperm := haround.perm
    rw [hrest, List.append_nil] at hperm
    exact ⟨hsound.congr fun f => hperm.symm.mem_iff, haround.tied⟩
  · have hsound := haround.sound (not_not.1 hblocking)
    cases hrested : planArbiters (R.restProblem facts t s) with
    | error e =>
      rw [hrested] at h
      cases h
    | ok rested =>
      rw [hrested] at h
      cases h
      have hnodup : ((s.placed ++ s.rest).map SlaveFlow.key).Nodup :=
        (haround.perm.map _).nodup_iff.2 hkeys
      rw [List.map_append, List.nodup_append] at hnodup
      obtain ⟨hsound', htied'⟩ := planArbiters_sound (P := R.restProblem facts t s) hnodup.2.1
        conflict_comm hrested
      have hmem : ∀ f, f ∈ planned ++ pending ↔ f ∈ s.placed ++ s.rest := fun f =>
        haround.perm.symm.mem_iff
      refine ⟨(hsound.insert hsound' rfl rfl conflict_comm ?_ ?_ ?_).congr hmem, fun htied => ?_⟩
      · exact fun f hf g hg =>
          hnodup.2.2 f.key (List.mem_map_of_mem hf) g.key (List.mem_map_of_mem hg)
      · intro y hy
        change y ∉ R.reservedAmsels t ∪ s.plan.amselMasters.keys.toFinset at hy
        rw [Finset.mem_union, not_or, List.mem_toFinset, Std.TreeMap.mem_keys] at hy
        exact hy
      · intro g _ a ha
        change R.excludedAround facts t s g a = false at ha
        simp only [excludedAround, Bool.or_eq_false_iff] at ha
        refine ⟨ha.1.1, fun f hf harbiter hslave => ?_⟩
        rw [← Bool.not_eq_true]
        intro hconflict
        have hall := List.any_eq_false.1 ha.2 f hf
        have hconflict' : R.conflict facts t g f = true := hconflict
        have harbiter' : s.plan.amsel f % R.numArbiters = a := harbiter
        simp [harbiter', hslave, hconflict'] at hall
      · refine ArbiterPlan.Tied.insert (haround.tied htied) htied' fun x y M N p hx hy hpM hpN => ?_
        obtain ⟨f, hf, rfl⟩ := hsound.used x M hx
        obtain ⟨g, hg, rfl⟩ := hsound'.used y N hy
        obtain ⟨z, hz, hzM⟩ := hsound'.routed g hg
        refine (mod_eq_of_not_excludedAround ?_ ?_ hpM hpN hx (hsound'.unexcluded g hg z hz)).trans
          (htied' z y _ _ p hzM hy hpN hpN)
        · exact hflows f ((hmem f).2 (List.mem_append_left _ hf))
        · exact hflows g ((hmem g).2 (List.mem_append_right _ hg))

/-! ## The whole tile -/

/-- The overlay's flows, then those of the others that are chosen, then the rest. -/
theorem perm_flows (R : PacketFlowRouting) (t : TileID) (p : SlaveFlow → Bool) :
    (R.overlay t ++ (R.others t).filter p ++ (R.others t).filter fun f => !p f).Perm
      (R.tileFlows t) := by
  rw [List.append_assoc]
  refine ((List.filter_append_perm p (R.others t)).append_left _).trans ?_
  exact List.filter_append_perm _ _

theorem perm_overlay_others (R : PacketFlowRouting) (t : TileID) :
    (R.overlay t ++ R.others t).Perm (R.tileFlows t) :=
  List.filter_append_perm _ _

theorem planOthers_sound {plan plan' : ArbiterPlan} (h : R.planOthers facts t plan = .ok plan')
    (hplan : plan.Sound (R.problem facts t (R.overlay t))) :
    plan'.Sound (R.problem facts t (R.tileFlows t)) ∧
      (plan.Tied R.numArbiters → plan'.Tied R.numArbiters) := by
  have hperm := R.perm_overlay_others t
  rw [planOthers] at h
  cases hfirst : R.around facts t plan (R.overlay t) (R.others t) with
  | ok placed =>
    rw [hfirst] at h
    cases h
    obtain ⟨hsound, htied⟩ := around_sound hfirst hplan
      ((hperm.map _).nodup_iff.2 (R.nodup_keys t)) fun f hf => hperm.mem_iff.1 hf
    exact ⟨hsound.congr fun f => hperm.symm.mem_iff, htied⟩
  | error first =>
    simp only [hfirst] at h
    split_ifs at h with hkeep htied
    have hperm' := R.perm_flows t (R.tiedToOverlay t)
    have hnodup := (hperm'.map SlaveFlow.key).nodup_iff.2 (R.nodup_keys t)
    cases htogether : planArbiters (R.problem facts t
        (R.overlay t ++ (R.others t).filter (R.tiedToOverlay t))) with
    | error e =>
      rw [htogether] at h
      cases h
    | ok together =>
      rw [htogether] at h
      rw [List.map_append] at hnodup
      obtain ⟨hsound, htied⟩ := planArbiters_sound (P := R.problem facts t
        (R.overlay t ++ (R.others t).filter (R.tiedToOverlay t)))
        (List.nodup_append.1 hnodup).1 conflict_comm htogether
      rw [← List.map_append] at hnodup
      obtain ⟨hsound', htied'⟩ := around_sound h hsound hnodup fun f hf => hperm'.mem_iff.1 hf
      exact ⟨hsound'.congr fun f => hperm'.symm.mem_iff, fun _ => htied' htied⟩

theorem planRest_sound {plan plan' : ArbiterPlan} (h : R.planRest facts t plan = .ok plan')
    (hplan : plan.Sound (R.problem facts t (R.overlay t))) :
    plan'.Sound (R.problem facts t (R.tileFlows t)) ∧
      (plan.Tied R.numArbiters → plan'.Tied R.numArbiters) := by
  rw [planRest] at h
  split_ifs at h with hothers
  · cases h
    have hperm := R.perm_overlay_others t
    rw [hothers, List.append_nil] at hperm
    exact ⟨hplan.congr fun f => hperm.symm.mem_iff, id⟩
  · exact planOthers_sound h hplan

/-- **The plan of a tile is sound**: every flow has an amsel that selects its master ports and is
not reserved, flows with different master ports have different amsels, no flow takes an arbiter
excluded for it, flows on different slave ports that conflict take different arbiters, and where
the pinned rules put no master port on two arbiters neither does the plan. -/
theorem planTile_sound {plan : ArbiterPlan} (h : R.planTile facts t = .ok plan) :
    plan.Sound (R.problem facts t (R.tileFlows t)) ∧
      (∀ f ∈ R.tileFlows t, ∀ g ∈ R.tileFlows t, f.masters ≠ g.masters →
        plan.slaveAmsels[f.key]? ≠ plan.slaveAmsels[g.key]?) ∧
      (R.PinsTied t → plan.Tied R.numArbiters) := by
  have hmain : plan.Sound (R.problem facts t (R.tileFlows t)) ∧
      (R.PinsTied t → plan.Tied R.numArbiters) := by
    rw [planTile] at h
    by_cases hall : R.overlay t = [] ∨ (R.others t = [] ∧ R.pinnedRules = [])
    · rw [if_pos hall] at h
      obtain ⟨hsound, htied⟩ := planArbiters_sound (P := R.problem facts t (R.tileFlows t))
        (R.nodup_keys t) conflict_comm h
      exact ⟨hsound, fun _ => htied⟩
    · rw [if_neg hall] at h
      cases hpinned : R.pinnedPlan facts t with
      | some kept =>
        simp only [hpinned] at h
        have hkept : R.keepPinned facts t = .ok kept := by
          rw [pinnedPlan] at hpinned
          split_ifs at hpinned
          cases hkeep : R.keepPinned facts t with
          | error e =>
            rw [hkeep] at hpinned
            cases hpinned
          | ok plan =>
            rw [hkeep] at hpinned
            exact congrArg Except.ok (Option.some.inj hpinned)
        obtain ⟨hsound, htied⟩ := keepPinned_sound hkept
        obtain ⟨hsound', htied'⟩ := planRest_sound h hsound
        exact ⟨hsound', fun hpins => htied' (htied hpins)⟩
      | none =>
        by_cases hkeep : R.keepOverlay = true
        · simp only [hpinned, hkeep, ↓reduceIte] at h
          cases h
        simp only [hpinned, hkeep, Bool.false_eq_true, ↓reduceIte] at h
        cases hoverlay : planArbiters (R.problem facts t (R.overlay t)) with
        | error e =>
          rw [hoverlay] at h
          cases h
        | ok alone =>
          rw [hoverlay] at h
          obtain ⟨hsound, htied⟩ := planArbiters_sound (P := R.problem facts t (R.overlay t))
            ((R.nodup_keys t).sublist (List.filter_sublist.map _)) conflict_comm hoverlay
          obtain ⟨hsound', htied'⟩ := planRest_sound h hsound
          exact ⟨hsound', fun _ => htied' htied⟩
  refine ⟨hmain.1, fun f hf g hg hne heq => hne ?_, hmain.2⟩
  obtain ⟨x, hx, _⟩ := hmain.1.routed f hf
  exact hmain.1.masters_eq hf hg hx (heq ▸ hx)

/-- A tile of a pinned overlay flow and another flow that can deadlock on its arbiter. -/
def besidePinned : PacketFlowRouting where
  numArbiters := 6
  numMselsPerArbiter := 4
  isShimNOCTile _ := false
  conflicts := { src := fun s => ⟨⟨s, 0⟩, .DMA, 0⟩, dst := fun s => ⟨⟨s, 1⟩, .DMA, 0⟩
                 tree := fun s => [s], canBlock := fun _ _ => true }
  slaveFlowStreams _ k := if k.id = 0 then [0] else [1]
  pinnedRules := [(⟨⟨0, 2⟩, .South, 0⟩, [⟨31, 0, 23⟩])]
  keepOverlay := true
  reservedAmsels _ := {0}
  tileFlows _ :=
    [{ slave := ⟨.South, 0⟩, id := 0, masters := [⟨.North, 0⟩], isCtrlPkt := true },
     { slave := ⟨.East, 0⟩, id := 2, masters := [⟨.West, 0⟩, ⟨.North, 1⟩], isCtrlPkt := false }]
  flowsSorted _ := by decide

theorem besidePinned_sound : ∃ plan, besidePinned.planTile {} ⟨0, 2⟩ = .ok plan ∧
    plan.Sound (besidePinned.problem {} ⟨0, 2⟩ (besidePinned.tileFlows ⟨0, 2⟩)) ∧
    (∀ f ∈ besidePinned.tileFlows ⟨0, 2⟩, ∀ g ∈ besidePinned.tileFlows ⟨0, 2⟩,
      f.masters ≠ g.masters → plan.slaveAmsels[f.key]? ≠ plan.slaveAmsels[g.key]?) ∧
    (besidePinned.PinsTied ⟨0, 2⟩ → plan.Tied besidePinned.numArbiters) :=
  ⟨_, rfl, planTile_sound rfl⟩

/-- A tile of two overlay flows that leave by one master port, and whose pinned rules put it on two
arbiters. -/
def crossPinned : PacketFlowRouting where
  numArbiters := 6
  numMselsPerArbiter := 4
  isShimNOCTile _ := false
  conflicts := { src := fun s => ⟨⟨s, 0⟩, .DMA, 0⟩, dst := fun s => ⟨⟨s, 1⟩, .DMA, 0⟩
                 tree := fun s => [s], canBlock := fun _ _ => false }
  slaveFlowStreams _ _ := []
  pinnedRules := [(⟨⟨0, 2⟩, .South, 0⟩, [⟨31, 0, 0⟩, ⟨31, 1, 1⟩])]
  keepOverlay := true
  reservedAmsels _ := ∅
  tileFlows _ :=
    [{ slave := ⟨.South, 0⟩, id := 0, masters := [⟨.North, 0⟩], isCtrlPkt := true },
     { slave := ⟨.South, 0⟩, id := 1, masters := [⟨.North, 0⟩, ⟨.North, 1⟩], isCtrlPkt := true }]
  flowsSorted _ := by decide

/-- The overlay keeps its amsels there, on both arbiters. -/
theorem crossPinned_untied :
    ∃ plan, crossPinned.planTile {} ⟨0, 2⟩ = .ok plan ∧ ¬ plan.Tied crossPinned.numArbiters := by
  refine ⟨_, rfl, fun h => ?_⟩
  have := h 0 1 [⟨.North, 0⟩] [⟨.North, 0⟩, ⟨.North, 1⟩] ⟨.North, 0⟩ (by decide) (by decide)
    (by decide) (by decide)
  revert this
  decide

end PacketFlowRouting

end MlirAie.Route
