import MlirAie.Route.Arbiter

/-!
# Arbiter plans are sound

* `ArbiterPlan.Sound`: what a plan promises of the flows it is for;
* `ArbiterProblem.Assigned`: what handing out amsels keeps;
* **`planArbiters_sound`**: a plan the search returns is sound and tied.
-/

namespace MlirAie.Route

open Lib

structure ArbiterPlan.Sound (plan : ArbiterPlan) (P : ArbiterProblem) : Prop where
  routed : ∀ f ∈ P.flows, ∃ x, plan.slaveAmsels[f.key]? = some x ∧
    plan.amselMasters[x]? = some f.masters
  used : ∀ (x : ℕ) (M : List Port), plan.amselMasters[x]? = some M → ∃ f ∈ P.flows, f.masters = M
  keys : ∀ k, k ∈ plan.slaveAmsels → ∃ f ∈ P.flows, f.key = k
  unreserved : ∀ (x : ℕ) (M : List Port), plan.amselMasters[x]? = some M → x ∉ P.reservedAmsels
  unexcluded : ∀ f ∈ P.flows, ∀ x, plan.slaveAmsels[f.key]? = some x →
    P.excluded f (x % P.numArbiters) = false
  apart : ∀ f ∈ P.flows, ∀ g ∈ P.flows, f.slave ≠ g.slave → P.conflict f g = true → ∀ x y,
    plan.slaveAmsels[f.key]? = some x → plan.slaveAmsels[g.key]? = some y →
      x % P.numArbiters ≠ y % P.numArbiters

def ArbiterPlan.Tied (plan : ArbiterPlan) (numArbiters : ℕ) : Prop :=
  ∀ (x y : ℕ) (M N : List Port) (p : Port), plan.amselMasters[x]? = some M →
    plan.amselMasters[y]? = some N → p ∈ M → p ∈ N → x % numArbiters = y % numArbiters

/-! ## Tied master ports -/

theorem unionSets_eq_of_eq {leader : Port → Port} {p q : Port} (a b : Port)
    (h : leader p = leader q) : unionSets leader a b p = unionSets leader a b q := by
  rw [unionSets, unionSets, h]

theorem unionSets_eq (leader : Port → Port) (a b : Port) :
    unionSets leader a b b = unionSets leader a b a := by
  rw [unionSets, unionSets, if_pos rfl, ite_self]

theorem foldl_unionSets_eq_of_eq {leader : Port → Port} {p q : Port} (a : Port) (ms : List Port)
    (h : leader p = leader q) :
    ms.foldl (fun l m => unionSets l a m) leader p =
      ms.foldl (fun l m => unionSets l a m) leader q := by
  induction ms generalizing leader with
  | nil => exact h
  | cons m ms ih => exact ih (unionSets_eq_of_eq a m h)

theorem foldl_unionSets_eq {ms : List Port} {m : Port} (leader : Port → Port) (a : Port)
    (hm : m ∈ ms) :
    ms.foldl (fun l m => unionSets l a m) leader m =
      ms.foldl (fun l m => unionSets l a m) leader a := by
  induction ms generalizing leader with
  | nil => cases hm
  | cons n ms ih =>
    rcases List.mem_cons.1 hm with rfl | hm
    · exact foldl_unionSets_eq_of_eq a ms (unionSets_eq leader a m)
    · exact ih _ hm

/-- **The master ports of a flow are tied.** -/
theorem tiedMasters_eq {flows : List SlaveFlow} {f : SlaveFlow} (hf : f ∈ flows) {m : Port}
    (hm : m ∈ f.masters) : tiedMasters flows m = tiedMasters flows f.front := by
  have hkeep : ∀ (fs : List SlaveFlow) (l : Port → Port), l m = l f.front →
      fs.foldl (fun tied f => f.masters.foldl (fun tied m => unionSets tied f.front m) tied) l m =
        fs.foldl (fun tied f => f.masters.foldl (fun tied m => unionSets tied f.front m) tied) l
          f.front := by
    intro fs
    induction fs with
    | nil => exact fun l h => h
    | cons g fs ih => exact fun l h => ih _ (foldl_unionSets_eq_of_eq g.front g.masters h)
  obtain ⟨before, after, rfl⟩ := List.append_of_mem hf
  rw [tiedMasters, List.foldl_append, List.foldl_cons]
  exact hkeep after _ (foldl_unionSets_eq _ f.front hm)

theorem tiedMasters_front_eq {flows : List SlaveFlow} {f g : SlaveFlow} (hf : f ∈ flows)
    (hg : g ∈ flows) {m : Port} (hmf : m ∈ f.masters) (hmg : m ∈ g.masters) :
    tiedMasters flows f.front = tiedMasters flows g.front := by
  rw [← tiedMasters_eq hf hmf, tiedMasters_eq hg hmg]

theorem mem_pairs_or {α : Type*} {l : List α} {a b : α} (ha : a ∈ l) (hb : b ∈ l) (hne : a ≠ b) :
    (a, b) ∈ pairs l ∨ (b, a) ∈ pairs l := by
  induction l with
  | nil => cases ha
  | cons c l ih =>
    rw [pairs, List.mem_append, List.mem_append]
    rcases List.mem_cons.1 ha with rfl | ha'
    · exact .inl (.inl (List.mem_map_of_mem ((List.mem_cons.1 hb).resolve_left hne.symm)))
    rcases List.mem_cons.1 hb with rfl | hb'
    · exact .inr (.inl (List.mem_map_of_mem ha'))
    · exact (ih ha' hb').imp .inr .inr

namespace ArbiterProblem

variable {P : ArbiterProblem}

/-! ## Units -/

theorem mem_units {u : FlowUnit} : u ∈ P.units ↔ ∃ f ∈ P.flows, P.unit (P.unitOf f) = u := by
  simp [units]

@[simp] theorem unit_leader (l : Port) : (P.unit l).leader = l := rfl

theorem mem_unit_flows {l : Port} {f : SlaveFlow} :
    f ∈ (P.unit l).flows ↔ f ∈ P.flows ∧ P.unitOf f = l := by
  simp [unit]

theorem mem_unit_masterSets {l : Port} {M : List Port} :
    M ∈ (P.unit l).masterSets ↔ ∃ f ∈ (P.unit l).flows, f.masters = M := by
  rw [← List.mem_map]
  simp only [unit, List.mem_append, List.mem_insertionSort, List.mem_filter, mem_appendNew,
    List.not_mem_nil, false_or, ← and_or_left]
  refine and_iff_left ?_
  rw [Bool.not_eq_true']
  exact Bool.eq_false_or_eq_true _

theorem unit_eq_of_mem {u : FlowUnit} (hu : u ∈ P.units) : P.unit u.leader = u := by
  obtain ⟨f, _, rfl⟩ := mem_units.1 hu
  rfl

theorem unit_mem {f : SlaveFlow} (hf : f ∈ P.flows) : P.unit (P.unitOf f) ∈ P.units :=
  mem_units.2 ⟨f, hf, rfl⟩

theorem nodup_leaders : (P.units.map FlowUnit.leader).Nodup := by
  have hid : FlowUnit.leader ∘ P.unit = id := rfl
  rw [units, List.map_map, hid, List.map_id]
  exact nodup_appendNew List.nodup_nil

theorem clash_comm (hsymm : ∀ f g, P.conflict f g = P.conflict g f) (f g : SlaveFlow) :
    P.clash f g = P.clash g f := by
  rw [clash, clash, hsymm, bne_comm]

theorem tiedClashes_ne_nil (hsymm : ∀ f g, P.conflict f g = P.conflict g f) {f g : SlaveFlow}
    (hf : f ∈ P.flows) (hg : g ∈ P.flows) (hunit : P.unitOf f = P.unitOf g)
    (hclash : P.clash f g = true) : P.tiedClashes ≠ [] := by
  have hne : f ≠ g := by
    rintro rfl
    simp [clash] at hclash
  have hpair : ∃ p ∈ pairs (P.unit (P.unitOf f)).flows, P.clash p.1 p.2 = true := by
    rcases mem_pairs_or (mem_unit_flows.2 ⟨hf, rfl⟩) (mem_unit_flows.2 ⟨hg, hunit.symm⟩) hne
      with h | h
    · exact ⟨_, h, hclash⟩
    · exact ⟨_, h, clash_comm hsymm f g ▸ hclash⟩
  obtain ⟨p, hp, hclash⟩ := hpair
  refine List.ne_nil_of_mem (a := p) (List.mem_flatMap.2 ⟨_, unit_mem hf, ?_⟩)
  exact List.mem_filter.2 ⟨hp, hclash⟩

/-- Units whose flows clash are neighbors. -/
theorem mem_neighbors (hsymm : ∀ f g, P.conflict f g = P.conflict g f) {f g : SlaveFlow}
    (hf : f ∈ P.flows) (hg : g ∈ P.flows) (hunit : P.unitOf f ≠ P.unitOf g)
    (hclash : P.clash f g = true) : P.unitOf g ∈ P.neighbors (P.unitOf f) := by
  have hne : f ≠ g := fun h => hunit (h ▸ rfl)
  refine List.mem_filter.2 ⟨List.mem_map_of_mem (f := FlowUnit.leader) (unit_mem hg), ?_⟩
  rw [List.any_eq_true]
  rcases mem_pairs_or hf hg hne with h | h
  · exact ⟨(f, g), List.mem_filter.2 ⟨h, by simp [hunit, hclash]⟩, by simp⟩
  · exact ⟨(g, f), List.mem_filter.2 ⟨h, by simp [hunit.symm, clash_comm hsymm g f, hclash]⟩,
      by simp⟩

theorem neighbors_comm {u v : Port} (hu : u ∈ P.units.map FlowUnit.leader)
    (h : v ∈ P.neighbors u) : u ∈ P.neighbors v := by
  rw [neighbors, List.mem_filter] at h ⊢
  refine ⟨hu, ?_⟩
  have h2 := h.2
  rw [List.any_eq_true] at h2 ⊢
  obtain ⟨p, hp, h2⟩ := h2
  exact ⟨p, hp, by rwa [Bool.or_comm]⟩

theorem not_mem_neighbors_self (u : Port) : u ∉ P.neighbors u := by
  intro h
  have h2 := (List.mem_filter.1 h).2
  rw [List.any_eq_true] at h2
  obtain ⟨p, hp, h2⟩ := h2
  have hne := (List.mem_filter.1 hp).2
  simp only [Bool.and_eq_true, bne_iff_ne, ne_eq] at hne
  simp only [Bool.or_self, Bool.and_eq_true, decide_eq_true_eq] at h2
  exact hne.1 (h2.1.trans h2.2.symm)

/-! ## The search -/

/-- What an attempt that succeeds has done. -/
theorem attempt_found {next : Placement → ℕ → Outcome Placement ℕ} {u : FlowUnit} {a : ℕ}
    {s : Placement} {k : ℕ × List (ℕ × List Port)} (h : (P.attempt next u a s k).found = true) :
    s.load a + u.masterSets.length ≤ (P.freeMsels a).length ∧ u.leader ∉ P.excludedUnits a ∧
      (∀ v ∈ P.neighbors u.leader, s.arbiterOf v ≠ some a) ∧
      (next (s.assign u a) k.1).found = true ∧
      (P.attempt next u a s k).state = (next (s.assign u a) k.1).state := by
  rw [attempt] at h ⊢
  simp only at h ⊢
  split_ifs at h ⊢ with h₁ h₂ h₃ h₄
  rw [not_or] at h₂
  exact ⟨not_lt.1 h₁, h₂.1, fun v hv hav => h₂.2 ⟨v, hv, hav⟩, h₄, rfl⟩

theorem attempt_undoes {next : Placement → ℕ → Outcome Placement ℕ} {u : FlowUnit} {a : ℕ}
    {s : Placement} (hfresh : s.arbiterOf u.leader = none) (h : Undoes next (s.assign u a)) :
    Undoes (P.attempt next u a) s := by
  intro k hk
  rw [attempt] at hk ⊢
  simp only at hk ⊢
  split_ifs at hk ⊢ with h₁ h₂ h₃ h₄
  · rfl
  · rfl
  · rfl
  · show (next (s.assign u a) k.1).state.unassign u a = s
    rw [h k.1 (Bool.not_eq_true _ ▸ h₄), Placement.unassign_assign hfresh]

/-- Units none of which is placed. -/
def Unplaced (us : List FlowUnit) (s : Placement) : Prop :=
  (us.map FlowUnit.leader).Nodup ∧ ∀ u ∈ us, s.arbiterOf u.leader = none

theorem Unplaced.assign {u : FlowUnit} {us : List FlowUnit} {s : Placement}
    (h : Unplaced (u :: us) s) (a : ℕ) : Unplaced us (s.assign u a) := by
  have hnodup := h.1
  rw [List.map_cons, List.nodup_cons] at hnodup
  refine ⟨hnodup.2, fun v hv => ?_⟩
  have hne : v.leader ≠ u.leader := fun he => hnodup.1 (he ▸ List.mem_map_of_mem hv)
  rw [Placement.assign_arbiterOf_of_ne hne]
  exact h.2 v (List.mem_cons_of_mem u hv)

theorem place_undoes {us : List FlowUnit} {s : Placement} (h : Unplaced us s) :
    Undoes (P.place us) s := by
  induction us generalizing s with
  | nil => exact fun k hk => by cases hk
  | cons u us ih =>
    intro k hk
    rw [place] at hk ⊢
    split_ifs at hk ⊢ with hsteps
    · rfl
    · exact Undoes.tryEach (fun a _ => attempt_undoes (h.2 u List.mem_cons_self) (ih (h.assign a)))
        _ hk

@[grind =] def mselsTaken (arbiterOf : Port → Option ℕ) (us : List FlowUnit) (a : ℕ) : ℕ :=
  ((us.filter fun u => arbiterOf u.leader = some a).map fun u => u.masterSets.length).sum

theorem mselsTaken_cons (arbiterOf : Port → Option ℕ) (u : FlowUnit) (us : List FlowUnit) (a : ℕ) :
    mselsTaken arbiterOf (u :: us) a =
      (if arbiterOf u.leader = some a then u.masterSets.length else 0) +
        mselsTaken arbiterOf us a := by
  rw [mselsTaken, List.filter_cons]
  by_cases h : arbiterOf u.leader = some a
  · simp [h, mselsTaken]
  · simp [h, mselsTaken]

theorem mselsTaken_append (arbiterOf : Port → Option ℕ) (us vs : List FlowUnit) (a : ℕ) :
    mselsTaken arbiterOf (us ++ vs) a = mselsTaken arbiterOf us a + mselsTaken arbiterOf vs a := by
  rw [mselsTaken, List.filter_append, List.map_append, List.sum_append]
  rfl

theorem mselsTaken_perm {arbiterOf : Port → Option ℕ} {us vs : List FlowUnit} (h : us.Perm vs)
    (a : ℕ) : mselsTaken arbiterOf us a = mselsTaken arbiterOf vs a :=
  ((h.filter _).map _).sum_eq

theorem mselsTaken_congr {arbiterOf arbiterOf' : Port → Option ℕ} {us : List FlowUnit}
    (h : ∀ u ∈ us, arbiterOf u.leader = arbiterOf' u.leader) (a : ℕ) :
    mselsTaken arbiterOf us a = mselsTaken arbiterOf' us a := by
  rw [mselsTaken, mselsTaken, List.filter_congr fun u hu => by rw [h u hu]]

structure Placed (P : ArbiterProblem) (done : List FlowUnit) (s : Placement) : Prop where
  arbiter : ∀ u ∈ done, ∃ a < P.numArbiters, s.arbiterOf u.leader = some a ∧
    u.leader ∉ P.excludedUnits a
  apart : ∀ u ∈ done, ∀ v ∈ done, v.leader ∈ P.neighbors u.leader →
    s.arbiterOf u.leader ≠ s.arbiterOf v.leader
  load : ∀ a, s.load a = mselsTaken s.arbiterOf done a
  room : ∀ a, s.load a ≤ (P.freeMsels a).length

theorem mem_candidates {s : Placement} {u : FlowUnit} {a : ℕ} (h : a ∈ P.candidates s u) :
    a < P.numArbiters := by
  rw [candidates] at h
  split_ifs at h
  · exact List.mem_range.1 (List.mem_reverse.1 h)
  · exact List.mem_range.1 ((List.mem_insertionSort _).1 h)

/-- One placement keeps what the search keeps. -/
theorem Placed.assign {done : List FlowUnit} {s : Placement} {u : FlowUnit} {a : ℕ}
    (h : P.Placed done s) (ha : a < P.numArbiters) (hdone : u.leader ∉ done.map FlowUnit.leader)
    (hu : u.leader ∈ P.units.map FlowUnit.leader)
    (hroom : s.load a + u.masterSets.length ≤ (P.freeMsels a).length)
    (hexcluded : u.leader ∉ P.excludedUnits a)
    (hapart : ∀ v ∈ P.neighbors u.leader, s.arbiterOf v ≠ some a)
    (hleaders : ∀ v ∈ done, v.leader ∈ P.units.map FlowUnit.leader) :
    P.Placed (u :: done) (s.assign u a) := by
  have hother : ∀ v ∈ done, (s.assign u a).arbiterOf v.leader = s.arbiterOf v.leader := by
    intro v hv
    have hne : v.leader ≠ u.leader := fun he => hdone (he ▸ List.mem_map_of_mem hv)
    exact Placement.assign_arbiterOf_of_ne hne
  constructor
  · intro v hv
    rcases List.mem_cons.1 hv with rfl | hv
    · exact ⟨a, ha, Placement.assign_arbiterOf_self, hexcluded⟩
    · rw [hother v hv]
      exact h.arbiter v hv
  · intro v hv w hw hvw
    rcases List.mem_cons.1 hv with rfl | hv'
    · rcases List.mem_cons.1 hw with rfl | hw'
      · exact absurd hvw (not_mem_neighbors_self _)
      · rw [Placement.assign_arbiterOf_self, hother w hw']
        exact (hapart w.leader hvw).symm
    · rcases List.mem_cons.1 hw with rfl | hw'
      · rw [Placement.assign_arbiterOf_self, hother v hv']
        exact hapart v.leader (neighbors_comm (hleaders v hv') hvw)
      · rw [hother v hv', hother w hw']
        exact h.apart v hv' w hw' hvw
  · intro b
    rw [mselsTaken_cons, Placement.assign_arbiterOf_self, mselsTaken_congr hother, ← h.load b]
    by_cases hab : a = b
    · subst hab
      rw [Placement.assign_load_self, if_pos rfl, add_comm]
    · rw [Placement.assign_load_of_ne (Ne.symm hab), if_neg fun he => hab (Option.some.inj he),
        zero_add]
  · intro b
    by_cases hab : b = a
    · subst hab
      rwa [Placement.assign_load_self]
    · rw [Placement.assign_load_of_ne hab]
      exact h.room b

/-- **A search that succeeds has placed every unit left.** -/
theorem place_placed {us done : List FlowUnit} {s : Placement} {k : ℕ} (h : Unplaced us s)
    (hplaced : P.Placed done s) (hdisjoint : ∀ u ∈ us, u.leader ∉ done.map FlowUnit.leader)
    (hunits : ∀ u ∈ us ++ done, u.leader ∈ P.units.map FlowUnit.leader)
    (hfound : (P.place us s k).found = true) :
    P.Placed (us.reverse ++ done) (P.place us s k).state := by
  induction us generalizing s done k with
  | nil => exact hplaced
  | cons u us ih =>
    have hundo : ∀ a ∈ P.candidates s u, Undoes (P.attempt (P.place us) u a) s := fun a _ =>
      attempt_undoes (h.2 u List.mem_cons_self) (place_undoes (h.assign a))
    rw [place] at hfound ⊢
    split_ifs at hfound ⊢ with hsteps
    obtain ⟨a, ha, k', hk', heq⟩ := tryEach_found hundo hfound
    obtain ⟨hroom, hexcluded, hapart, hnext, hstate⟩ := attempt_found hk'
    simp only [heq, hstate]
    have hnodup := h.1
    rw [List.map_cons, List.nodup_cons] at hnodup
    have hstep : P.Placed (u :: done) (s.assign u a) :=
      hplaced.assign (mem_candidates ha) (hdisjoint u List.mem_cons_self)
        (hunits u List.mem_cons_self) hroom hexcluded hapart fun v hv =>
          hunits v (List.mem_append_right _ hv)
    have hdisjoint' : ∀ v ∈ us, v.leader ∉ (u :: done).map FlowUnit.leader := by
      intro v hv
      rw [List.map_cons, List.mem_cons, not_or]
      exact ⟨fun he => hnodup.1 (he ▸ List.mem_map_of_mem hv),
        hdisjoint v (List.mem_cons_of_mem u hv)⟩
    have hunits' : ∀ v ∈ us ++ u :: done, v.leader ∈ P.units.map FlowUnit.leader := by
      intro v hv
      refine hunits v ?_
      rw [List.cons_append, List.mem_cons]
      rcases List.mem_append.1 hv with hv | hv
      · exact .inr (List.mem_append_left _ hv)
      · exact (List.mem_cons.1 hv).imp_right (List.mem_append_right _)
    rw [List.reverse_cons, List.append_assoc]
    exact ih (h.assign a) hstep hdisjoint' hunits' hnext

/-! ## Handing out amsels -/

theorem amselOf_mod {a : ℕ} (ha : a < P.numArbiters) (m : ℕ) :
    P.amselOf a m % P.numArbiters = a := by
  rw [amselOf, Nat.add_mul_mod_self_right, Nat.mod_eq_of_lt ha]

theorem amselOf_inj {a b m n : ℕ} (ha : a < P.numArbiters) (hb : b < P.numArbiters)
    (h : P.amselOf a m = P.amselOf b n) : a = b ∧ m = n := by
  have hab : a = b := by rw [← amselOf_mod ha m, h, amselOf_mod hb n]
  subst hab
  rw [amselOf, amselOf, Nat.add_left_cancel_iff] at h
  exact ⟨rfl, Nat.eq_of_mul_eq_mul_right (Nat.zero_lt_of_lt ha) h⟩

theorem not_mem_reservedAmsels {a m : ℕ} (h : m ∈ P.freeMsels a) :
    P.amselOf a m ∉ P.reservedAmsels := by
  simpa using (List.mem_filter.1 h).2

theorem nodup_freeMsels (a : ℕ) : (P.freeMsels a).Nodup :=
  List.nodup_range.filter _

/-- The position of an msel of `a` that is handed out. -/
def Used (P : ArbiterProblem) (s : AmselState) (a j : ℕ) : Prop :=
  j < (P.freeMsels a).length ∧ (j < s.low a ∨ (P.freeMsels a).length - s.high a ≤ j)

def HandedOut (P : ArbiterProblem) (s : AmselState) : Prop :=
  ∀ (x : ℕ) (M : List Port), s.plan.amselMasters[x]? = some M →
    ∃ a < P.numArbiters, ∃ j, P.Used s a j ∧ ∃ m, (P.freeMsels a)[j]? = some m ∧ x = P.amselOf a m

/-- What handing out amsels of `a` to some master sets does. -/
structure Takes (P : ArbiterProblem) (a : ℕ) (sets : List (List Port)) (s s' : AmselState) :
    Prop where
  handedOut : P.HandedOut s'
  keeps : ∀ (y : ℕ) (N : List Port), s.plan.amselMasters[y]? = some N →
    s'.plan.amselMasters[y]? = some N
  new : ∀ (y : ℕ) (N : List Port), s'.plan.amselMasters[y]? = some N →
    s.plan.amselMasters[y]? = some N ∨
      N ∈ sets ∧ y % P.numArbiters = a ∧ y ∉ P.reservedAmsels
  taken : ∀ M ∈ sets, s'.plan.amselMasters[s'.setAmsel M]? = some M ∧
    s'.setAmsel M % P.numArbiters = a
  others : ∀ M ∉ sets, s'.setAmsel M = s.setAmsel M
  slaves : s'.plan.slaveAmsels = s.plan.slaveAmsels
  count : ∀ b, s'.low b + s'.high b = s.low b + s.high b + if b = a then sets.length else 0

theorem takeAmsel_used {isCtrlPkt : Bool} {a : ℕ} {s : AmselState} {M : List Port}
    (hroom : s.low a + s.high a < (P.freeMsels a).length) (b j : ℕ) :
    P.Used (P.takeAmsel isCtrlPkt a s M) b j ↔
      P.Used s b j ∨ b = a ∧ j = P.nextSlot isCtrlPkt a s := by
  by_cases hb : b = a
  · subst hb
    cases isCtrlPkt
    · simp only [Used, takeAmsel, nextSlot, Bool.false_eq_true, ↓reduceIte, Function.update_self,
        true_and]
      omega
    · simp only [Used, takeAmsel, nextSlot, ↓reduceIte, Function.update_self, true_and]
      omega
  · cases isCtrlPkt <;> simp [Used, takeAmsel, hb]

/-- Handing out one amsel. -/
theorem takes_one (isCtrlPkt : Bool) {a : ℕ} {s : AmselState} (ha : a < P.numArbiters)
    (hroom : s.low a + s.high a < (P.freeMsels a).length) (h : P.HandedOut s) (M : List Port) :
    P.Takes a [M] s (P.takeAmsel isCtrlPkt a s M) := by
  have hlt : P.nextSlot isCtrlPkt a s < (P.freeMsels a).length := by
    cases isCtrlPkt <;> simp only [nextSlot, Bool.false_eq_true, ↓reduceIte] <;> omega
  have hunused : ¬ P.Used s a (P.nextSlot isCtrlPkt a s) := by
    cases isCtrlPkt <;> simp only [Used, nextSlot, Bool.false_eq_true, ↓reduceIte] <;> omega
  obtain ⟨m, hm⟩ : ∃ m, (P.freeMsels a)[P.nextSlot isCtrlPkt a s]? = some m :=
    ⟨_, List.getElem?_eq_getElem hlt⟩
  have hx : P.nextAmsel isCtrlPkt a s = P.amselOf a m := by
    rw [nextAmsel, List.getD_eq_getElem?_getD, hm, Option.getD_some]
  have hfresh : ∀ (y : ℕ) (N : List Port), s.plan.amselMasters[y]? = some N →
      P.amselOf a m ≠ y := by
    intro y N hy heq
    obtain ⟨b, hb, j, hj, n, hn, rfl⟩ := h y N hy
    obtain ⟨rfl, rfl⟩ := amselOf_inj ha hb heq
    have hslot : P.nextSlot isCtrlPkt a s = j := by
      rw [← hn] at hm
      exact (List.getElem?_inj hlt (nodup_freeMsels a)).1 hm
    exact hunused (hslot ▸ hj)
  have hget : ∀ y : ℕ, (P.takeAmsel isCtrlPkt a s M).plan.amselMasters[y]? =
      if P.amselOf a m = y then some M else s.plan.amselMasters[y]? := by
    intro y
    rw [takeAmsel, hx]
    simp only [Std.TreeMap.getElem?_insert, compare_eq_iff_eq]
  constructor
  · intro y N hy
    rw [hget] at hy
    split_ifs at hy with hxy
    · exact ⟨a, ha, _, (takeAmsel_used hroom _ _).2 (.inr ⟨rfl, rfl⟩), m, hm, hxy.symm⟩
    · obtain ⟨b, hb, j, hj, n, hn⟩ := h y N hy
      exact ⟨b, hb, j, (takeAmsel_used hroom _ _).2 (.inl hj), n, hn⟩
  · intro y N hy
    rw [hget, if_neg (hfresh y N hy)]
    exact hy
  · intro y N hy
    rw [hget] at hy
    split_ifs at hy with hxy
    · cases hy
      subst hxy
      exact .inr ⟨List.mem_singleton_self M, amselOf_mod ha m,
        not_mem_reservedAmsels (List.mem_of_getElem? hm)⟩
    · exact .inl hy
  · intro N hN
    obtain rfl := List.mem_singleton.1 hN
    have hset : (P.takeAmsel isCtrlPkt a s N).setAmsel N = P.amselOf a m := by
      rw [takeAmsel, hx]
      exact Function.update_self ..
    rw [hset, hget, if_pos rfl]
    exact ⟨rfl, amselOf_mod ha m⟩
  · intro N hN
    rw [takeAmsel]
    exact Function.update_of_ne (fun he => hN (List.mem_singleton.2 he)) ..
  · rfl
  · intro b
    by_cases hb : b = a
    · subst hb
      cases isCtrlPkt <;> simp [takeAmsel] <;> omega
    · cases isCtrlPkt <;> simp [takeAmsel, hb]

theorem Takes.trans {a : ℕ} {sets sets' : List (List Port)} {s s' s'' : AmselState}
    (h : P.Takes a sets s s') (h' : P.Takes a sets' s' s'') : P.Takes a (sets ++ sets') s s'' := by
  constructor
  · exact h'.handedOut
  · exact fun y N hy => h'.keeps y N (h.keeps y N hy)
  · intro y N hy
    rcases h'.new y N hy with hy | ⟨hN, hy⟩
    · exact (h.new y N hy).imp_right fun ⟨hN, hy⟩ => ⟨List.mem_append_left _ hN, hy⟩
    · exact .inr ⟨List.mem_append_right _ hN, hy⟩
  · intro M hM
    by_cases hM' : M ∈ sets'
    · exact h'.taken M hM'
    · obtain ⟨hget, hmod⟩ := h.taken M ((List.mem_append.1 hM).resolve_right hM')
      rw [h'.others M hM']
      exact ⟨h'.keeps _ _ hget, hmod⟩
  · intro M hM
    rw [List.mem_append, not_or] at hM
    rw [h'.others M hM.2, h.others M hM.1]
  · rw [h'.slaves, h.slaves]
  · intro b
    rw [h'.count, h.count, List.length_append]
    split_ifs <;> omega

/-- Handing out an amsel to each of some master sets. -/
theorem takes_foldl (isCtrlPkt : Bool) {a : ℕ} {s : AmselState} (ha : a < P.numArbiters)
    {sets : List (List Port)} (hroom : s.low a + s.high a + sets.length ≤ (P.freeMsels a).length)
    (h : P.HandedOut s) :
    P.Takes a sets s (sets.foldl (P.takeAmsel isCtrlPkt a) s) := by
  induction sets generalizing s with
  | nil =>
    exact ⟨h, fun _ _ hy => hy, fun _ _ hy => .inl hy, fun _ hM => (List.not_mem_nil hM).elim,
      fun _ _ => rfl, rfl, fun b => by simp⟩
  | cons M sets ih =>
    rw [List.length_cons] at hroom
    have hone := takes_one isCtrlPkt ha (by omega) h M
    refine hone.trans (ih ?_ hone.handedOut)
    have := hone.count a
    rw [if_pos rfl, List.length_singleton] at this
    omega

theorem takeSlave_foldl {fs : List SlaveFlow} {s : AmselState}
    (hnodup : (fs.map SlaveFlow.key).Nodup) :
    (fs.foldl takeSlave s).plan.amselMasters = s.plan.amselMasters ∧
      (fs.foldl takeSlave s).low = s.low ∧ (fs.foldl takeSlave s).high = s.high ∧
      (∀ f ∈ fs, (fs.foldl takeSlave s).plan.slaveAmsels[f.key]? = some (s.setAmsel f.masters)) ∧
      ∀ k, k ∉ fs.map SlaveFlow.key →
        (fs.foldl takeSlave s).plan.slaveAmsels[k]? = s.plan.slaveAmsels[k]? := by
  induction fs generalizing s with
  | nil => exact ⟨rfl, rfl, rfl, fun _ hf => (List.not_mem_nil hf).elim, fun _ _ => rfl⟩
  | cons f fs ih =>
    rw [List.map_cons, List.nodup_cons] at hnodup
    obtain ⟨hmasters, hlow, hhigh, hrouted, hother⟩ := ih (s := takeSlave s f) hnodup.2
    refine ⟨hmasters, hlow, hhigh, fun g hg => ?_, fun k hk => ?_⟩
    · rw [List.foldl_cons]
      rcases List.mem_cons.1 hg with rfl | hg
      · rw [hother _ hnodup.1, takeSlave, Std.TreeMap.getElem?_insert_self]
      · exact hrouted g hg
    · rw [List.map_cons, List.mem_cons, not_or] at hk
      rw [List.foldl_cons, hother k hk.2, takeSlave, Std.TreeMap.getElem?_insert,
        if_neg fun he => hk.1 (compare_eq_iff_eq.1 he).symm]

/-- What handing out amsels keeps of the units done so far. -/
structure Assigned (P : ArbiterProblem) (arbiterOf : Port → Option ℕ) (done : List FlowUnit)
    (s : AmselState) : Prop where
  handedOut : P.HandedOut s
  count : ∀ a, s.low a + s.high a = mselsTaken arbiterOf done a
  owned : ∀ (x : ℕ) (M : List Port), s.plan.amselMasters[x]? = some M → ∃ u ∈ done,
    M ∈ u.masterSets ∧ arbiterOf u.leader = some (x % P.numArbiters) ∧ x ∉ P.reservedAmsels
  routed : ∀ u ∈ done, ∀ f ∈ u.flows, ∃ x, s.plan.slaveAmsels[f.key]? = some x ∧
    s.plan.amselMasters[x]? = some f.masters ∧ arbiterOf u.leader = some (x % P.numArbiters)
  keys : ∀ k, k ∈ s.plan.slaveAmsels → ∃ u ∈ done, ∃ f ∈ u.flows, f.key = k

theorem Assigned.assignUnit {arbiterOf : Port → Option ℕ} {done : List FlowUnit} {s : AmselState}
    {u : FlowUnit} {a : ℕ} (h : P.Assigned arbiterOf done s) (ha : a < P.numArbiters)
    (harbiter : arbiterOf u.leader = some a)
    (hroom : mselsTaken arbiterOf (u :: done) a ≤ (P.freeMsels a).length)
    (hsets : ∀ f ∈ u.flows, f.masters ∈ u.masterSets) (hnodup : (u.flows.map SlaveFlow.key).Nodup)
    (hkeys : ∀ v ∈ done, ∀ g ∈ v.flows, g.key ∉ u.flows.map SlaveFlow.key) :
    P.Assigned arbiterOf (u :: done) (P.assignUnit arbiterOf s u) := by
  rw [mselsTaken_cons, if_pos harbiter, ← h.count] at hroom
  have htakes : P.Takes a u.masterSets { s with setAmsel := fun _ => 0 } _ :=
    takes_foldl u.isCtrlPkt ha (by simp only; omega) h.handedOut
  rw [ArbiterProblem.assignUnit, harbiter, Option.getD_some]
  obtain ⟨hmasters, hlow, hhigh, hrouted, hother⟩ := takeSlave_foldl (s :=
    u.masterSets.foldl (P.takeAmsel u.isCtrlPkt a) { s with setAmsel := fun _ => 0 }) hnodup
  constructor
  · intro x M hx
    rw [hmasters] at hx
    obtain ⟨b, hb, j, hj, m, hm⟩ := htakes.handedOut x M hx
    exact ⟨b, hb, j, by rwa [Used, hlow, hhigh], m, hm⟩
  · intro b
    rw [hlow, hhigh, htakes.count, h.count, mselsTaken_cons, harbiter, add_comm]
    by_cases hb : b = a
    · rw [if_pos hb, if_pos (congrArg some hb.symm)]
    · rw [if_neg hb, if_neg fun he => hb (Option.some.inj he).symm]
  · intro x M hx
    rw [hmasters] at hx
    rcases htakes.new x M hx with hx | ⟨hM, hmod, hreserved⟩
    · obtain ⟨v, hv, hown⟩ := h.owned x M hx
      exact ⟨v, List.mem_cons_of_mem u hv, hown⟩
    · exact ⟨u, List.mem_cons_self, hM, harbiter.trans (congrArg some hmod.symm), hreserved⟩
  · intro v hv f hf
    rw [hmasters]
    rcases List.mem_cons.1 hv with rfl | hv
    · obtain ⟨hget, hmod⟩ := htakes.taken f.masters (hsets f hf)
      exact ⟨_, hrouted f hf, hget, harbiter.trans (congrArg some hmod.symm)⟩
    · obtain ⟨x, hslave, hget, hmod⟩ := h.routed v hv f hf
      refine ⟨x, ?_, htakes.keeps x _ hget, hmod⟩
      rw [hother _ (hkeys v hv f hf), htakes.slaves]
      exact hslave
  · intro k hk
    by_cases hmem : k ∈ u.flows.map SlaveFlow.key
    · obtain ⟨f, hf, rfl⟩ := List.mem_map.1 hmem
      exact ⟨u, List.mem_cons_self, f, hf, rfl⟩
    · rw [Std.TreeMap.mem_iff_isSome_getElem?, hother k hmem, htakes.slaves,
        ← Std.TreeMap.mem_iff_isSome_getElem?] at hk
      obtain ⟨v, hv, hf⟩ := h.keys k hk
      exact ⟨v, List.mem_cons_of_mem u hv, hf⟩

theorem key_not_mem (hkeys : (P.flows.map SlaveFlow.key).Nodup) {u v : FlowUnit} (hu : u ∈ P.units)
    (hv : v ∈ P.units) (hne : u.leader ≠ v.leader) {g : SlaveFlow} (hg : g ∈ v.flows) :
    g.key ∉ u.flows.map SlaveFlow.key := by
  rw [← unit_eq_of_mem hv] at hg
  rw [← unit_eq_of_mem hu]
  intro hmem
  obtain ⟨f, hf, hkey⟩ := List.mem_map.1 hmem
  rw [mem_unit_flows] at hf hg
  have heq : f = g := List.inj_on_of_nodup_map hkeys hf.1 hg.1 hkey
  exact hne (hf.2.symm.trans ((congrArg P.unitOf heq).trans hg.2))

/-- **Handing out the amsels of all units left.** -/
theorem assigned_foldl {arbiterOf : Port → Option ℕ} {us done : List FlowUnit} {s : AmselState}
    (h : P.Assigned arbiterOf done s) (hunits : ∀ u ∈ us ++ done, u ∈ P.units)
    (harbiter : ∀ u ∈ us, ∃ a < P.numArbiters, arbiterOf u.leader = some a)
    (hroom : ∀ a, mselsTaken arbiterOf (us ++ done) a ≤ (P.freeMsels a).length)
    (hkeys : (P.flows.map SlaveFlow.key).Nodup)
    (hleaders : ((us ++ done).map FlowUnit.leader).Nodup) :
    P.Assigned arbiterOf (us.reverse ++ done) (us.foldl (P.assignUnit arbiterOf) s) := by
  induction us generalizing s done with
  | nil => exact h
  | cons u us ih =>
    have hperm : (us ++ u :: done).Perm (u :: us ++ done) := List.perm_middle
    have hu : u ∈ P.units := hunits u List.mem_cons_self
    obtain ⟨a, ha, harb⟩ := harbiter u List.mem_cons_self
    have hstep : P.Assigned arbiterOf (u :: done) (P.assignUnit arbiterOf s u) := by
      refine h.assignUnit ha harb ?_ ?_ ?_ fun v hv g hg => ?_
      · have := hroom a
        rw [← mselsTaken_perm hperm, mselsTaken_append] at this
        omega
      · intro f hf
        rw [← unit_eq_of_mem hu] at hf ⊢
        exact mem_unit_masterSets.2 ⟨f, hf, rfl⟩
      · rw [← unit_eq_of_mem hu]
        exact hkeys.sublist (List.filter_sublist.map _)
      · refine key_not_mem hkeys hu (hunits v (List.mem_append_right _ hv)) (fun he => ?_) hg
        rw [List.cons_append, List.map_cons, List.nodup_cons] at hleaders
        exact hleaders.1 (he ▸ List.mem_map_of_mem (List.mem_append_right us hv))
    rw [List.reverse_cons, List.append_assoc]
    refine ih hstep (fun v hv => hunits v (hperm.mem_iff.1 hv))
      (fun v hv => harbiter v (List.mem_cons_of_mem u hv)) (fun b => ?_) ?_
    · exact (mselsTaken_perm hperm b).trans_le (hroom b)
    · exact (hperm.map _).nodup_iff.2 hleaders

theorem perm_mselOrder : P.mselOrder.Perm P.units := List.perm_insertionSort _ _

theorem perm_order : P.order.Perm P.units := List.perm_insertionSort _ _

/-- The units, all placed by a search that succeeds. -/
theorem placed_order (hfound : (P.place P.order {} 0).found = true) :
    P.Placed P.units (P.place P.order {} 0).state := by
  have hleader : ∀ u ∈ P.order ++ [], u.leader ∈ P.units.map FlowUnit.leader := by
    intro u hu
    rw [List.append_nil] at hu
    exact List.mem_map_of_mem (perm_order.mem_iff.1 hu)
  have hempty : P.Placed [] {} :=
    ⟨fun u hu => (List.not_mem_nil hu).elim, fun u hu => (List.not_mem_nil hu).elim,
      fun _ => rfl, fun _ => Nat.zero_le _⟩
  have hunplaced : Unplaced P.order {} :=
    ⟨((perm_order.map FlowUnit.leader).nodup_iff).2 nodup_leaders, fun _ _ => rfl⟩
  have hplaced := place_placed hunplaced hempty
    (fun u _ => List.not_mem_nil) hleader hfound
  rw [List.append_nil] at hplaced
  have hperm : P.order.reverse.Perm P.units := (List.reverse_perm _).trans perm_order
  refine ⟨fun u hu => hplaced.arbiter u (hperm.mem_iff.2 hu), fun u hu v hv =>
    hplaced.apart u (hperm.mem_iff.2 hu) v (hperm.mem_iff.2 hv), fun a => ?_, hplaced.room⟩
  rw [hplaced.load, mselsTaken_perm hperm]

theorem assigned_mselOrder {s : Placement} (hkeys : (P.flows.map SlaveFlow.key).Nodup)
    (hplaced : P.Placed P.units s) :
    P.Assigned s.arbiterOf P.mselOrder.reverse (P.mselOrder.foldl (P.assignUnit s.arbiterOf) {}) := by
  have hempty : P.Assigned s.arbiterOf [] {} := by
    refine ⟨fun x M hx => ?_, fun a => rfl, fun x M hx => ?_, fun u hu =>
      (List.not_mem_nil hu).elim, fun k hk => ?_⟩
    · simp at hx
    · simp at hx
    · simp at hk
  have hmem : ∀ u ∈ P.mselOrder ++ [], u ∈ P.units := by
    intro u hu
    rw [List.append_nil] at hu
    exact perm_mselOrder.mem_iff.1 hu
  have harbiter : ∀ u ∈ P.mselOrder, ∃ a < P.numArbiters, s.arbiterOf u.leader = some a := by
    intro u hu
    obtain ⟨a, ha, harb, _⟩ := hplaced.arbiter u (perm_mselOrder.mem_iff.1 hu)
    exact ⟨a, ha, harb⟩
  have hassigned := assigned_foldl hempty hmem harbiter (fun a => ?_) hkeys ?_
  · rwa [List.append_nil] at hassigned
  · rw [List.append_nil, mselsTaken_perm perm_mselOrder, ← hplaced.load]
    exact hplaced.room a
  · rw [List.append_nil, (perm_mselOrder.map _).nodup_iff]
    exact nodup_leaders

/-- The amsels handed out are a sound plan, where no flows clash within a unit. -/
theorem Assigned.sound {s : Placement} {t : AmselState}
    (h : P.Assigned s.arbiterOf P.mselOrder.reverse t) (hplaced : P.Placed P.units s)
    (hclashes : P.tiedClashes = []) (hsymm : ∀ f g, P.conflict f g = P.conflict g f) :
    t.plan.Sound P := by
  have hrouted : ∀ f ∈ P.flows, ∃ x, t.plan.slaveAmsels[f.key]? = some x ∧
      t.plan.amselMasters[x]? = some f.masters ∧
      s.arbiterOf (P.unitOf f) = some (x % P.numArbiters) := fun f hf =>
    h.routed _ (List.mem_reverse.2 (perm_mselOrder.mem_iff.2 (unit_mem hf))) f
      (mem_unit_flows.2 ⟨hf, rfl⟩)
  have harbiter : ∀ f ∈ P.flows, ∀ x, t.plan.slaveAmsels[f.key]? = some x →
      s.arbiterOf (P.unitOf f) = some (x % P.numArbiters) := by
    intro f hf x hx
    obtain ⟨y, hy, _, harb⟩ := hrouted f hf
    rw [hx, Option.some.injEq] at hy
    exact hy ▸ harb
  have hunits : ∀ u ∈ P.mselOrder.reverse, P.unit u.leader = u := fun u hu =>
    unit_eq_of_mem (perm_mselOrder.mem_iff.1 (List.mem_reverse.1 hu))
  constructor
  · intro f hf
    obtain ⟨x, hslave, hmasters, _⟩ := hrouted f hf
    exact ⟨x, hslave, hmasters⟩
  · intro x M hx
    obtain ⟨u, hu, hM, _⟩ := h.owned x M hx
    rw [← hunits u hu, mem_unit_masterSets] at hM
    obtain ⟨f, hf, hfM⟩ := hM
    exact ⟨f, (mem_unit_flows.1 hf).1, hfM⟩
  · intro k hk
    obtain ⟨u, hu, f, hf, hfk⟩ := h.keys k hk
    rw [← hunits u hu] at hf
    exact ⟨f, (mem_unit_flows.1 hf).1, hfk⟩
  · intro x M hx
    obtain ⟨u, _, _, _, hreserved⟩ := h.owned x M hx
    exact hreserved
  · intro f hf x hx
    obtain ⟨a, _, harb, hexcluded⟩ := hplaced.arbiter _ (unit_mem hf)
    rw [unit_leader, harbiter f hf x hx, Option.some.injEq] at harb
    rw [← Bool.not_eq_true]
    intro hex
    refine hexcluded (mem_appendNew.2 (.inr (List.mem_map.2 ⟨f, ?_, rfl⟩)))
    exact List.mem_filter.2 ⟨hf, harb ▸ hex⟩
  · intro f hf g hg hslave hconflict x y hx hy heq
    have hclash : P.clash f g = true := by simp [clash, hslave, hconflict]
    by_cases hunit : P.unitOf f = P.unitOf g
    · exact tiedClashes_ne_nil hsymm hf hg hunit hclash hclashes
    · refine hplaced.apart _ (unit_mem hf) _ (unit_mem hg) (mem_neighbors hsymm hf hg hunit hclash) ?_
      rw [unit_leader, unit_leader, harbiter f hf x hx, harbiter g hg y hy, heq]

/-- The amsels handed out tie each master port to one arbiter. -/
theorem Assigned.tied {arbiterOf : Port → Option ℕ} {t : AmselState}
    (h : P.Assigned arbiterOf P.mselOrder.reverse t) : t.plan.Tied P.numArbiters := by
  have hset : ∀ (x : ℕ) (M : List Port), t.plan.amselMasters[x]? = some M → ∃ f ∈ P.flows,
      f.masters = M ∧ arbiterOf (P.unitOf f) = some (x % P.numArbiters) := by
    intro x M hx
    obtain ⟨u, hu, hM, harb, _⟩ := h.owned x M hx
    rw [← unit_eq_of_mem (perm_mselOrder.mem_iff.1 (List.mem_reverse.1 hu)),
      mem_unit_masterSets] at hM
    obtain ⟨f, hf, hfM⟩ := hM
    obtain ⟨hf, hunit⟩ := mem_unit_flows.1 hf
    exact ⟨f, hf, hfM, hunit ▸ harb⟩
  intro x y M N p hx hy hpM hpN
  obtain ⟨f, hf, rfl, hfx⟩ := hset x M hx
  obtain ⟨g, hg, rfl, hgy⟩ := hset y N hy
  have hunit : P.unitOf f = P.unitOf g := tiedMasters_front_eq hf hg hpM hpN
  rw [hunit, hgy, Option.some.injEq] at hfx
  exact hfx.symm

end ArbiterProblem

open ArbiterProblem

/-- **A plan the search returns is sound, and ties each master port to one arbiter.** -/
theorem planArbiters_sound {P : ArbiterProblem} (hkeys : (P.flows.map SlaveFlow.key).Nodup)
    (hsymm : ∀ f g, P.conflict f g = P.conflict g f) {plan : ArbiterPlan}
    (h : planArbiters P = .ok plan) : plan.Sound P ∧ plan.Tied P.numArbiters := by
  rw [planArbiters] at h
  simp only at h
  split_ifs at h with hclashes hmost hfound
  cases h
  have hplaced := placed_order hfound
  have hassigned := assigned_mselOrder hkeys hplaced
  exact ⟨hassigned.sound hplaced (not_not.1 hclashes) hsymm, hassigned.tied⟩

end MlirAie.Route
