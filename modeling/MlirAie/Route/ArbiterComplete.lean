import MlirAie.Route.ArbiterSound

/-!
# The arbiter search is complete

Where the search finds no plan within its steps, the flows cannot take arbiters and msels at all. A
search step gives up on an arbiter only if it has no room, is ruled out, or is empty and as good as
one tried before; exchanging the two arbiters then turns a plan with the one into a plan with the
other.

* `ArbiterProblem.Assigns`: arbiters and msels the flows could take;
* `ArbiterProblem.Fits.swap`: arbiters of one kind are interchangeable;
* **`planArbiters_complete`**: no plan means none exists.
-/

namespace MlirAie.Route

open Lib

/-! ## Joined ports -/

theorem apply_tiedMasters {β : Type*} (c : Port → β) {flows : List SlaveFlow}
    (h : ∀ f ∈ flows, ∀ m ∈ f.masters, c m = c f.front) (p : Port) :
    c (tiedMasters flows p) = c p := by
  have hunion : ∀ {leader : Port → Port} {a b : Port}, (∀ p, c (leader p) = c p) → c a = c b →
      ∀ p, c (unionSets leader a b p) = c p := by
    intro leader a b hl hab p
    rw [unionSets]
    split_ifs with hp
    · rw [hl, hab, ← hl b, ← hp, hl]
    · exact hl p
  have hfold : ∀ {leader : Port → Port} (a : Port) (ms : List Port), (∀ p, c (leader p) = c p) →
      (∀ m ∈ ms, c m = c a) →
      ∀ p, c (ms.foldl (fun tied m => unionSets tied a m) leader p) = c p := by
    intro leader a ms
    induction ms generalizing leader with
    | nil => exact fun hl _ => hl
    | cons m ms ih =>
      intro hl hms
      exact ih (hunion hl (hms m List.mem_cons_self).symm)
        fun n hn => hms n (List.mem_cons_of_mem m hn)
  have hall : ∀ {leader : Port → Port} (fs : List SlaveFlow), (∀ p, c (leader p) = c p) →
      (∀ f ∈ fs, ∀ m ∈ f.masters, c m = c f.front) →
      ∀ p, c (fs.foldl (fun tied f => f.masters.foldl (fun tied m => unionSets tied f.front m) tied)
        leader p) = c p := by
    intro leader fs
    induction fs generalizing leader with
    | nil => exact fun hl _ => hl
    | cons f fs ih =>
      intro hl hfs
      exact ih (hfold f.front f.masters hl (hfs f List.mem_cons_self))
        fun g hg => hfs g (List.mem_cons_of_mem f hg)
  exact hall flows (fun _ => rfl) h p

theorem mem_of_mem_pairs {α : Type*} {l : List α} {p : α × α} (h : p ∈ pairs l) :
    p.1 ∈ l ∧ p.2 ∈ l := by
  induction l with
  | nil => cases h
  | cons a l ih =>
    rw [pairs, List.mem_append, List.mem_map] at h
    rcases h with ⟨b, hb, rfl⟩ | h
    · exact ⟨List.mem_cons_self, List.mem_cons_of_mem a hb⟩
    · exact ⟨List.mem_cons_of_mem a (ih h).1, List.mem_cons_of_mem a (ih h).2⟩

namespace ArbiterProblem

variable {P : ArbiterProblem}

/-- Arbiters the flows could take, and msels their master sets could: flows that share a master port
take one arbiter, each master set has a free msel of its own there, no flow takes an arbiter that is
excluded for it, and no two conflicting flows on different slave ports share one. -/
structure Assigns (P : ArbiterProblem) (arbiter : SlaveFlow → ℕ) (msel : List Port → ℕ) :
    Prop where
  lt : ∀ f ∈ P.flows, arbiter f < P.numArbiters
  tied : ∀ f ∈ P.flows, ∀ g ∈ P.flows, ∀ m ∈ f.masters, m ∈ g.masters → arbiter f = arbiter g
  free : ∀ f ∈ P.flows, msel f.masters < P.numMselsPerArbiter ∧
    P.amselOf (arbiter f) (msel f.masters) ∉ P.reservedAmsels
  own : ∀ f ∈ P.flows, ∀ g ∈ P.flows, arbiter f = arbiter g → f.masters ≠ g.masters →
    msel f.masters ≠ msel g.masters
  unexcluded : ∀ f ∈ P.flows, P.excluded f (arbiter f) = false
  apart : ∀ f ∈ P.flows, ∀ g ∈ P.flows, f.slave ≠ g.slave → P.conflict f g = true →
    arbiter f ≠ arbiter g

def searchSteps (P : ArbiterProblem) : ℕ :=
  if P.tiedClashes ≠ [] ∨ (P.units.any fun u => u.masterSets.length > P.mostFree) then 0
  else (P.place P.order {} 0).spent

/-! ## Arbiters of units -/

/-- Arbiters the units could take, by the leaders of the units. -/
structure Fits (P : ArbiterProblem) (α : Port → ℕ) : Prop where
  lt : ∀ u ∈ P.units, α u.leader < P.numArbiters
  unexcluded : ∀ u ∈ P.units, u.leader ∉ P.excludedUnits (α u.leader)
  apart : ∀ u ∈ P.units, ∀ v ∈ P.neighbors u.leader, α v ≠ α u.leader
  room : ∀ a, mselsTaken (fun p => some (α p)) P.units a ≤ (P.freeMsels a).length

theorem masterSets_ne_nil {u : FlowUnit} (hu : u ∈ P.units) : u.masterSets ≠ [] := by
  obtain ⟨f, hf, rfl⟩ := mem_units.1 hu
  exact List.ne_nil_of_mem (mem_unit_masterSets.2 ⟨f, mem_unit_flows.2 ⟨hf, rfl⟩, rfl⟩)

theorem length_le_mselsTaken {arbiterOf : Port → Option ℕ} {us : List FlowUnit} {u : FlowUnit}
    {a : ℕ} (hu : u ∈ us) (ha : arbiterOf u.leader = some a) :
    u.masterSets.length ≤ mselsTaken arbiterOf us a := by
  rw [mselsTaken]
  refine List.single_le_sum (fun _ _ => Nat.zero_le _) _ (List.mem_map_of_mem ?_)
  exact List.mem_filter.2 ⟨hu, decide_eq_true ha⟩

theorem emptyKind_swap {a b : ℕ} (h : P.emptyKind a = P.emptyKind b) (c : ℕ) :
    P.emptyKind (Equiv.swap a b c) = P.emptyKind c := by
  rw [Equiv.swap_apply_def]
  split_ifs with ha hb
  · rw [ha, h]
  · rw [hb, h]
  · rfl

theorem mselsTaken_swap (α : Port → ℕ) (us : List FlowUnit) (a b c : ℕ) :
    mselsTaken (fun p => some (Equiv.swap a b (α p))) us c =
      mselsTaken (fun p => some (α p)) us (Equiv.swap a b c) := by
  have hfilter : ∀ u : FlowUnit, (some (Equiv.swap a b (α u.leader)) = some c) =
      (some (α u.leader) = some (Equiv.swap a b c)) := by
    intro u
    rw [Option.some.injEq, Option.some.injEq, Equiv.swap_apply_eq_iff]
  simp only [mselsTaken, hfilter]

/-- Arbiters of one kind are interchangeable. -/
theorem Fits.swap {α : Port → ℕ} (h : P.Fits α) {a b : ℕ} (ha : a < P.numArbiters)
    (hb : b < P.numArbiters) (hkind : P.emptyKind a = P.emptyKind b) :
    P.Fits fun p => Equiv.swap a b (α p) where
  lt u hu := by
    rw [Equiv.swap_apply_def]
    split_ifs
    exacts [hb, ha, h.lt u hu]
  unexcluded u hu := by
    have hx := congrArg Prod.snd (emptyKind_swap hkind (α u.leader))
    rw [show P.excludedUnits (Equiv.swap a b (α u.leader)) = P.excludedUnits (α u.leader) from hx]
    exact h.unexcluded u hu
  apart u hu v hv heq := h.apart u hu v hv ((Equiv.swap a b).injective heq)
  room c := by
    have hc := congrArg Prod.fst (emptyKind_swap hkind c)
    rw [mselsTaken_swap, ← show (P.freeMsels (Equiv.swap a b c)).length = (P.freeMsels c).length
      from hc]
    exact h.room _

/-- `α` has the units placed so far where the search has them. -/
def Extends (α : Port → ℕ) (done : List FlowUnit) (s : Placement) : Prop :=
  ∀ u ∈ done, s.arbiterOf u.leader = some (α u.leader)

/-- Exchanging two empty arbiters moves no unit placed so far. -/
theorem Extends.swap {α : Port → ℕ} {done : List FlowUnit} {s : Placement}
    (h : Extends α done s) (hunits : ∀ u ∈ done, u.masterSets ≠ [])
    (hload : ∀ a, s.load a = mselsTaken s.arbiterOf done a) {a b : ℕ} (ha : s.load a = 0)
    (hb : s.load b = 0) : Extends (fun p => Equiv.swap a b (α p)) done s := by
  have hempty : ∀ {c}, s.load c = 0 → ∀ u ∈ done, α u.leader ≠ c := by
    rintro c hc u hu rfl
    have hle := length_le_mselsTaken hu (h u hu)
    rw [← hload, hc, Nat.le_zero, List.length_eq_zero_iff] at hle
    exact hunits u hu hle
  intro u hu
  show s.arbiterOf u.leader = some (Equiv.swap a b (α u.leader))
  rw [h u hu, Equiv.swap_apply_of_ne_of_ne (hempty ha u hu) (hempty hb u hu)]

theorem Extends.assign {α : Port → ℕ} {done : List FlowUnit} {s : Placement} {u : FlowUnit}
    (h : Extends α done s) (hu : u.leader ∉ done.map FlowUnit.leader) :
    Extends α (u :: done) (s.assign u (α u.leader)) := by
  intro v hv
  rcases List.mem_cons.1 hv with rfl | hv
  · exact Placement.assign_arbiterOf_self
  · have hne : v.leader ≠ u.leader := fun he => hu (he ▸ List.mem_map_of_mem hv)
    rw [Placement.assign_arbiterOf_of_ne hne]
    exact h v hv

/-! ## A search that fails -/

theorem attempt_failed {next : Placement → ℕ → Outcome Placement ℕ} {u : FlowUnit} {a : ℕ}
    {s : Placement} {k : ℕ × List (ℕ × List Port)}
    (h : (P.attempt next u a s k).found = false) :
    (P.attempt next u a s k).spent = k ∧
        ((P.freeMsels a).length < s.load a + u.masterSets.length ∨ u.leader ∈ P.excludedUnits a ∨
          (∃ v ∈ P.neighbors u.leader, s.arbiterOf v = some a) ∨
          s.load a = 0 ∧ P.emptyKind a ∈ k.2) ∨
      (P.attempt next u a s k).spent =
          ((next (s.assign u a) k.1).spent, P.noteTried s a k.2) ∧
        (next (s.assign u a) k.1).found = false := by
  rw [attempt] at h ⊢
  simp only at h ⊢
  split_ifs at h ⊢ with h₁ h₂ h₃ h₄
  · exact .inl ⟨rfl, .inl h₁⟩
  · exact .inl ⟨rfl, .inr (h₂.imp id .inl)⟩
  · exact .inl ⟨rfl, .inr (.inr (.inr h₃))⟩
  · exact .inr ⟨rfl, Bool.not_eq_true _ ▸ h₄⟩

theorem attempt_spent {next : Placement → ℕ → Outcome Placement ℕ} {u : FlowUnit} {a M : ℕ}
    {s : Placement} {k : ℕ × List (ℕ × List Port)}
    (hnext : ∀ k, (next (s.assign u a) k).spent ≤ M → k ≤ M)
    (h : (P.attempt next u a s k).spent.1 ≤ M) : k.1 ≤ M := by
  rw [attempt] at h
  simp only at h
  split_ifs at h
  exacts [h, h, h, hnext k.1 h, hnext k.1 h]

/-- Steps once taken stay taken. -/
theorem place_spent {us : List FlowUnit} {s : Placement} (h : Unplaced us s) {k M : ℕ}
    (hspent : (P.place us s k).spent ≤ M) : k ≤ M := by
  induction us generalizing s k with
  | nil => exact hspent
  | cons u us ih =>
    rw [place] at hspent
    split_ifs at hspent
    · exact (Nat.le_succ k).trans hspent
    · have hback := tryEach_spent (W := fun k => k.1 ≤ M)
        (fun a _ => attempt_undoes (h.2 u List.mem_cons_self) (place_undoes (h.assign a)))
        (fun a _ _ => attempt_spent fun _ => ih (h.assign a)) hspent
      exact (Nat.le_succ k).trans hback

theorem Fits.not_blocked {α : Port → ℕ} (h : P.Fits α) {u : FlowUnit} {us done : List FlowUnit}
    {s : Placement} (hα : Extends α done s) (hs : Unplaced (u :: us) s)
    (hload : ∀ a, s.load a = mselsTaken s.arbiterOf done a)
    (hperm : (u :: us ++ done).Perm P.units) :
    s.load (α u.leader) + u.masterSets.length ≤ (P.freeMsels (α u.leader)).length ∧
      u.leader ∉ P.excludedUnits (α u.leader) ∧
      ∀ v ∈ P.neighbors u.leader, s.arbiterOf v ≠ some (α u.leader) := by
  have hu : u ∈ P.units := hperm.mem_iff.1 List.mem_cons_self
  refine ⟨?_, h.unexcluded u hu, ?_⟩
  · have hdone : s.load (α u.leader) = mselsTaken (fun p => some (α p)) done (α u.leader) := by
      have hplaced : ∀ v ∈ done, s.arbiterOf v.leader = (fun p => some (α p)) v.leader := hα
      rw [hload]
      exact mselsTaken_congr hplaced _
    have hroom := h.room (α u.leader)
    rw [← mselsTaken_perm hperm, List.cons_append, mselsTaken_cons, if_pos rfl,
      mselsTaken_append, ← hdone] at hroom
    omega
  · intro v hv hv'
    obtain ⟨w, hw, rfl⟩ := List.mem_map.1 (List.mem_filter.1 hv).1
    rcases List.mem_append.1 (hperm.mem_iff.2 hw) with hw' | hw'
    · rw [hs.2 w hw'] at hv'
      cases hv'
    · rw [hα w hw', Option.some.injEq] at hv'
      exact h.apart u hu w.leader hv hv'

/-- **A search that fails within its steps has tried every way to go on.** -/
theorem not_extends_of_place {us done : List FlowUnit} {s : Placement} {k : ℕ}
    (hs : Unplaced us s) (hload : ∀ a, s.load a = mselsTaken s.arbiterOf done a)
    (hdisjoint : ∀ u ∈ us, u.leader ∉ done.map FlowUnit.leader)
    (hperm : (us ++ done).Perm P.units) (hfound : (P.place us s k).found = false)
    (hspent : (P.place us s k).spent ≤ maxSearchSteps) {α : Port → ℕ} (hfits : P.Fits α) :
    ¬Extends α done s := by
  induction us generalizing s done k α with
  | nil => cases hfound
  | cons u us ih =>
    rw [place] at hfound hspent
    split_ifs at hfound hspent with hsteps
    · exact absurd hspent (not_le.2 hsteps)
    have hunits : ∀ v ∈ done, v.masterSets ≠ [] := fun v hv =>
      masterSets_ne_nil (hperm.mem_iff.1 (List.mem_append_right _ hv))
    have hnodup : (us.map FlowUnit.leader).Nodup ∧ u.leader ∉ us.map FlowUnit.leader := by
      have h := hs.1
      rw [List.map_cons, List.nodup_cons] at h
      exact h.symm
    -- no arbiter tried takes `u` in arbiters that fit
    have hnone : ∀ a ∈ P.candidates s u, ∀ β, P.Fits β → Extends β done s → β u.leader ≠ a := by
      refine (tryEach_failed (W := fun k => k.1 ≤ maxSearchSteps)
        (N := fun k => ∀ kind ∈ k.2, ∃ b < P.numArbiters, s.load b = 0 ∧
          P.emptyKind b = kind ∧ ∀ β, P.Fits β → Extends β done s → β u.leader ≠ b)
        (fun a _ => attempt_undoes (hs.2 u List.mem_cons_self) (place_undoes (hs.assign a)))
        (fun a _ _ => attempt_spent fun _ => place_spent (hs.assign a)) ?_
        (fun kind hkind => absurd hkind List.not_mem_nil) hfound hspent).1
      intro a ha k hk hfail hwithin
      have hlt := mem_candidates ha
      rcases attempt_failed hfail with ⟨hsame, hblocked⟩ | ⟨hgone, hnext⟩
      · rw [hsame]
        refine ⟨?_, hk⟩
        rintro β hβ hext rfl
        obtain ⟨hroom, hexcluded, hapart⟩ := hβ.not_blocked hext hs hload hperm
        rcases hblocked with h | h | ⟨v, hv, h⟩ | ⟨hempty, hkind⟩
        · exact absurd hroom (not_le.2 h)
        · exact hexcluded h
        · exact hapart v hv h
        · -- another empty arbiter of the kind was tried: exchange the two
          obtain ⟨b, hb, hbempty, hsame, hbad⟩ := hk _ hkind
          refine hbad _ (hβ.swap hlt hb hsame.symm) (hext.swap hunits hload hempty hbempty) ?_
          exact Equiv.swap_apply_left _ _
      · have hbad : ∀ β, P.Fits β → Extends β done s → β u.leader ≠ a := by
          rintro β hβ hext rfl
          rw [hgone] at hwithin
          have hdone := hdisjoint u List.mem_cons_self
          refine ih (hs.assign _) (fun c => ?_) (fun v hv => ?_)
            (List.perm_middle.trans hperm) hnext hwithin hβ (hext.assign hdone)
          · have hother : ∀ v ∈ done,
                (s.assign u (β u.leader)).arbiterOf v.leader = s.arbiterOf v.leader := by
              intro v hv
              have hne : v.leader ≠ u.leader := fun he => hdone (he ▸ List.mem_map_of_mem hv)
              exact Placement.assign_arbiterOf_of_ne hne
            rw [mselsTaken_cons, Placement.assign_arbiterOf_self, mselsTaken_congr hother,
              ← hload c]
            by_cases hc : β u.leader = c
            · subst hc
              rw [Placement.assign_load_self, if_pos rfl, add_comm]
            · rw [Placement.assign_load_of_ne (Ne.symm hc),
                if_neg fun he => hc (Option.some.inj he), zero_add]
          · rw [List.map_cons, List.mem_cons, not_or]
            exact ⟨fun he => hnodup.2 (he ▸ List.mem_map_of_mem hv),
              hdisjoint v (List.mem_cons_of_mem u hv)⟩
        refine ⟨hbad, ?_⟩
        rw [hgone]
        intro kind hkind
        rw [noteTried] at hkind
        split_ifs at hkind with hempty
        · rcases List.mem_cons.1 hkind with rfl | hkind
          · exact ⟨a, hlt, hempty, rfl, hbad⟩
          · exact hk kind hkind
        · exact hk kind hkind
    intro hext
    have hu : u ∈ P.units := hperm.mem_iff.1 List.mem_cons_self
    refine hnone (α u.leader) ?_ α hfits hext rfl
    have hlt := List.mem_range.2 (hfits.lt u hu)
    rw [candidates]
    split_ifs
    · exact List.mem_reverse.2 hlt
    · exact (List.mem_insertionSort _).2 hlt

/-! ## From flows to units -/

namespace Assigns

variable {arbiter : SlaveFlow → ℕ} {msel : List Port → ℕ}

theorem unit_eq (h : P.Assigns arbiter msel) {f g : SlaveFlow} (hf : f ∈ P.flows)
    (hg : g ∈ P.flows) (hunit : P.unitOf f = P.unitOf g) : arbiter f = arbiter g := by
  -- the arbiter of the first flow that leaves by a port
  let c : Port → Option ℕ := fun p => (P.flows.find? fun f => p ∈ f.masters).map arbiter
  have hc : ∀ f ∈ P.flows, ∀ m ∈ f.masters, c m = some (arbiter f) := by
    intro f hf m hm
    have hsome : (P.flows.find? fun g => m ∈ g.masters).isSome := by
      rw [List.find?_isSome]
      exact ⟨f, hf, decide_eq_true hm⟩
    obtain ⟨g, hg⟩ := Option.isSome_iff_exists.1 hsome
    have hgm : m ∈ g.masters := by simpa using List.find?_some hg
    show (P.flows.find? fun g => m ∈ g.masters).map arbiter = _
    rw [hg, Option.map_some, h.tied g (List.mem_of_find?_eq_some hg) f hf m hgm hm]
  have hjoin : ∀ p, c (tiedMasters P.flows p) = c p := apply_tiedMasters c fun f hf m hm => by
    rw [hc f hf m hm, hc f hf f.front f.front_mem]
  have hcf : c (P.unitOf f) = some (arbiter f) := by
    rw [unitOf, hjoin, hc f hf f.front f.front_mem]
  have hcg : c (P.unitOf g) = some (arbiter g) := by
    rw [unitOf, hjoin, hc g hg g.front g.front_mem]
  rw [hunit, hcg, Option.some.injEq] at hcf
  exact hcf.symm

def unitArbiter (P : ArbiterProblem) (arbiter : SlaveFlow → ℕ) (l : Port) : ℕ :=
  ((P.flows.find? fun f => P.unitOf f = l).map arbiter).getD 0

theorem unitArbiter_eq (h : P.Assigns arbiter msel) {f : SlaveFlow} (hf : f ∈ P.flows) :
    unitArbiter P arbiter (P.unitOf f) = arbiter f := by
  have hsome : (P.flows.find? fun g => P.unitOf g = P.unitOf f).isSome := by
    rw [List.find?_isSome]
    exact ⟨f, hf, decide_eq_true rfl⟩
  obtain ⟨g, hg⟩ := Option.isSome_iff_exists.1 hsome
  rw [unitArbiter, hg, Option.map_some, Option.getD_some]
  exact h.unit_eq (List.mem_of_find?_eq_some hg) hf (by simpa using List.find?_some hg)

theorem disjoint_masterSets {u v : FlowUnit} (hu : u ∈ P.units) (hv : v ∈ P.units)
    (hne : u.leader ≠ v.leader) : List.Disjoint u.masterSets v.masterSets := by
  intro M hM hM'
  rw [← unit_eq_of_mem hu, mem_unit_masterSets] at hM
  rw [← unit_eq_of_mem hv, mem_unit_masterSets] at hM'
  obtain ⟨f, hf, hfM⟩ := hM
  obtain ⟨g, hg, hgM⟩ := hM'
  have hfront : f.front = g.front := by
    simp only [SlaveFlow.front, hfM, hgM]
  refine hne ?_
  rw [← (mem_unit_flows.1 hf).2, ← (mem_unit_flows.1 hg).2, unitOf, unitOf, hfront]

theorem nodup_masterSets {u : FlowUnit} (hu : u ∈ P.units) : u.masterSets.Nodup := by
  rw [← unit_eq_of_mem hu]
  simp only [unit]
  have hsets : (appendNew [] ((P.flows.filter fun f => P.unitOf f = u.leader).map
    SlaveFlow.masters)).Nodup := nodup_appendNew List.nodup_nil
  rw [List.nodup_append]
  refine ⟨(List.perm_insertionSort _ _).nodup_iff.2 (hsets.filter _), hsets.filter _, ?_⟩
  intro M hM N hN hMN
  rw [List.mem_insertionSort, List.mem_filter] at hM
  rw [List.mem_filter, ← hMN, hM.2] at hN
  cases hN.2

/-- Arbiters the flows could take are arbiters their units could. -/
theorem fits (h : P.Assigns arbiter msel) : P.Fits (unitArbiter P arbiter) where
  lt u hu := by
    obtain ⟨f, hf, rfl⟩ := mem_units.1 hu
    rw [unit_leader, h.unitArbiter_eq hf]
    exact h.lt f hf
  unexcluded u hu := by
    obtain ⟨f, hf, rfl⟩ := mem_units.1 hu
    rw [unit_leader, h.unitArbiter_eq hf]
    intro hmem
    simp only [excludedUnits, mem_appendNew, List.not_mem_nil, List.mem_map, List.mem_filter,
      false_or] at hmem
    obtain ⟨g, ⟨hg, hex⟩, hgf⟩ := hmem
    rw [← h.unit_eq hg hf hgf, h.unexcluded g hg] at hex
    cases hex
  apart u hu v hv := by
    rw [neighbors, List.mem_filter, List.any_eq_true] at hv
    obtain ⟨p, hp, hends⟩ := hv.2
    rw [crossPairs, List.mem_filter] at hp
    obtain ⟨h₁, h₂⟩ := mem_of_mem_pairs hp.1
    have hclash := hp.2
    simp only [clash, Bool.and_eq_true, bne_iff_ne] at hclash
    have hne := h.apart p.1 h₁ p.2 h₂ hclash.2.1 hclash.2.2
    rw [← h.unitArbiter_eq h₁, ← h.unitArbiter_eq h₂] at hne
    simp only [Bool.or_eq_true, Bool.and_eq_true, decide_eq_true_eq] at hends
    rcases hends with ⟨hu, hv⟩ | ⟨hv, hu⟩
    · rw [← hu, ← hv]
      exact hne.symm
    · rw [← hu, ← hv]
      exact hne
  room a := by
    have hmem : ∀ M ∈ (P.units.filter fun u =>
        some (unitArbiter P arbiter u.leader) = some a).flatMap FlowUnit.masterSets, ∃ f ∈ P.flows, f.masters = M ∧ arbiter f = a := by
      intro M hM
      obtain ⟨u, hu, hM⟩ := List.mem_flatMap.1 hM
      obtain ⟨hu, ha⟩ := List.mem_filter.1 hu
      rw [← unit_eq_of_mem hu, mem_unit_masterSets] at hM
      obtain ⟨f, hf, hfM⟩ := hM
      obtain ⟨hf, hfu⟩ := mem_unit_flows.1 hf
      refine ⟨f, hf, hfM, ?_⟩
      rw [← h.unitArbiter_eq hf, hfu]
      exact Option.some.inj (of_decide_eq_true ha)
    rw [mselsTaken, ← List.length_flatMap, ← List.length_map msel]
    refine (List.subperm_of_subset ?_ ?_).length_le
    · refine List.Nodup.map_on ?_ ?_
      · intro M hM N hN hMN
        obtain ⟨f, hf, rfl, hfa⟩ := hmem M hM
        obtain ⟨g, hg, rfl, hga⟩ := hmem N hN
        by_contra hne
        exact h.own f hf g hg (hfa.trans hga.symm) hne hMN
      · rw [List.nodup_flatMap]
        refine ⟨fun u hu => nodup_masterSets (List.mem_filter.1 hu).1, ?_⟩
        have hpair := List.pairwise_map.1 (nodup_leaders (P := P))
        refine List.Pairwise.filter _ (hpair.imp_of_mem ?_)
        exact fun hu hv hne => disjoint_masterSets hu hv hne
    · intro m hm
      obtain ⟨M, hM, rfl⟩ := List.mem_map.1 hm
      obtain ⟨f, hf, rfl, rfl⟩ := hmem M hM
      exact List.mem_filter.2 ⟨List.mem_range.2 (h.free f hf).1,
        decide_eq_true (h.free f hf).2⟩

theorem tiedClashes_eq_nil (h : P.Assigns arbiter msel) : P.tiedClashes = [] := by
  rw [tiedClashes, List.flatMap_eq_nil_iff]
  intro u hu
  rw [List.filter_eq_nil_iff]
  intro p hp hclash
  rw [← unit_eq_of_mem hu] at hp
  obtain ⟨h₁, h₂⟩ := mem_of_mem_pairs hp
  obtain ⟨h₁, hu₁⟩ := mem_unit_flows.1 h₁
  obtain ⟨h₂, hu₂⟩ := mem_unit_flows.1 h₂
  rw [clash, Bool.and_eq_true, bne_iff_ne] at hclash
  exact h.apart p.1 h₁ p.2 h₂ hclash.1 hclash.2 (h.unit_eq h₁ h₂ (hu₁.trans hu₂.symm))

end Assigns

theorem le_foldl_max (g : ℕ → ℕ) {l : List ℕ} {a : ℕ} (ha : a ∈ l) (m : ℕ) :
    g a ≤ l.foldl (fun most b => max most (g b)) m := by
  have hgrow : ∀ (l : List ℕ) (m : ℕ), m ≤ l.foldl (fun most b => max most (g b)) m := by
    intro l
    induction l with
    | nil => exact fun m => le_rfl
    | cons b l ih => exact fun m => (le_max_left m (g b)).trans (ih _)
  induction l generalizing m with
  | nil => cases ha
  | cons b l ih =>
    rcases List.mem_cons.1 ha with rfl | ha
    · exact (le_max_right m (g a)).trans (hgrow l _)
    · exact ih ha _

theorem Fits.length_le_mostFree {α : Port → ℕ} (h : P.Fits α) {u : FlowUnit} (hu : u ∈ P.units) :
    u.masterSets.length ≤ P.mostFree :=
  calc u.masterSets.length
    _ ≤ mselsTaken (fun p => some (α p)) P.units (α u.leader) := length_le_mselsTaken hu rfl
    _ ≤ (P.freeMsels (α u.leader)).length := h.room _
    _ ≤ P.mostFree := le_foldl_max (fun a => (P.freeMsels a).length)
      (List.mem_range.2 (h.lt u hu)) 0

/-- The units in search order, before any is placed. -/
theorem unplaced_order : Unplaced P.order {} :=
  ⟨((perm_order (P := P)).map FlowUnit.leader).nodup_iff.2 nodup_leaders, fun _ _ => rfl⟩

end ArbiterProblem

/-- **No plan means none exists**: where the search returns no plan and has not run out of steps,
there are no arbiters and msels that the flows could take. -/
theorem planArbiters_complete {P : ArbiterProblem} {blocking : List (SlaveFlow × SlaveFlow)}
    (h : planArbiters P = .error blocking) (hsteps : P.searchSteps ≤ maxSearchSteps) :
    ¬∃ arbiter msel, P.Assigns arbiter msel := by
  rintro ⟨arbiter, msel, hassigns⟩
  have hfits := hassigns.fits
  have hmost : (P.units.any fun u => u.masterSets.length > P.mostFree) = false := by
    rw [List.any_eq_false]
    intro u hu
    simpa using hfits.length_le_mostFree hu
  rw [planArbiters, if_neg (not_not.mpr hassigns.tiedClashes_eq_nil), hmost] at h
  rw [ArbiterProblem.searchSteps, if_neg] at hsteps
  · have hfound : (P.place P.order {} 0).found = false := by
      by_contra hfound
      rw [Bool.not_eq_false] at hfound
      simp [hfound] at h
    have hperm : (P.order ++ []).Perm P.units := by
      rw [List.append_nil]
      exact ArbiterProblem.perm_order
    exact ArbiterProblem.not_extends_of_place ArbiterProblem.unplaced_order (fun _ => rfl)
      (fun u _ => List.not_mem_nil) hperm hfound hsteps hfits
      fun u hu => absurd hu List.not_mem_nil
  · rw [hassigns.tiedClashes_eq_nil, hmost]
    simp

def oneArbiter : ArbiterProblem where
  numArbiters := 1
  numMselsPerArbiter := 4
  flows := [⟨⟨.DMA, 0⟩, 1, [⟨.South, 2⟩], false, by decide, by decide⟩,
    ⟨⟨.DMA, 1⟩, 2, [⟨.South, 3⟩], false, by decide, by decide⟩]
  conflict := fun _ _ => true
  excluded := fun _ _ => false
  reservedAmsels := ∅

theorem oneArbiter_none : ¬∃ arbiter msel, oneArbiter.Assigns arbiter msel :=
  @planArbiters_complete oneArbiter oneArbiter.crossPairs rfl (by decide)

end MlirAie.Route
