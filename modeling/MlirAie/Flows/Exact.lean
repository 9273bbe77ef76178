import MlirAie.Lib.Worklist
import MlirAie.Flows.Cubes

/-!
# Exact packet endpoints

Where rules on a port overlap, which ids each one takes depends on the rules before it. So each
packet id is traced on its own, and the ids that reach the same destinations are described by
disjoint cubes.

* `Grouped`: what tracing the ids one after another keeps;
* **`exactPacketEndpoints_claims`**: an endpoint is claimed for an id exactly where its trace ends;
* **`exactPacketEndpoints_disjoint`**: claims with different destinations share no id.
-/

namespace MlirAie.Flows

open Lib

/-- What tracing the ids has found: the paths, the ids by the paths they reach, and the ops each id
passes on each path. -/
structure Collected where
  paths : List PacketConnection := []
  idsByDests : Std.TreeMap (List ℕ) (List ℕ) := ∅
  opsTo : ℕ → ℕ → List HopOp := fun _ _ => []

def samePath (a b : PacketConnection) : Bool :=
  a.portConnection == b.portConnection && a.vias == b.vias

def sameDest (a b : PacketConnection) : Bool := a.portConnection == b.portConnection

/-- The index of a connection's path, and the paths with it. -/
def pathIndex (same : PacketConnection → PacketConnection → Bool) (paths : List PacketConnection)
    (c : PacketConnection) : ℕ × List PacketConnection :=
  match paths.findIdx? fun p => same c p with
  | some i => (i, paths)
  | none => (paths.length, paths ++ [c])

/-- Notes that `id` reaches the path of `c`. -/
def collectOne (same : PacketConnection → PacketConnection → Bool) (id : ℕ)
    (s : Collected × List ℕ) (c : PacketConnection) : Collected × List ℕ :=
  if !c.isPacket then s
  else
    let path := (pathIndex same s.1.paths c).1
    ({ s.1 with
        paths := (pathIndex same s.1.paths c).2
        opsTo := fun i p =>
          if i = id ∧ p = path then appendNew (s.1.opsTo id path) c.usedOps else s.1.opsTo i p },
      if path ∈ s.2 then s.2 else s.2 ++ [path])

def addId (s : Collected) (id : ℕ) (reached : List ℕ) : Collected :=
  if reached = [] then s
  else
    let key := reached.insertionSort (· ≤ ·)
    { s with idsByDests := s.idsByDests.insert key (s.idsByDests.getD key [] ++ [id]) }

def collectId (same : PacketConnection → PacketConnection → Bool)
    (trace : ℕ → List PacketConnection) (s : Collected) (id : ℕ) : Collected :=
  let r := (trace id).foldl (collectOne same id) (s, [])
  addId r.1 id r.2

/-- The endpoints of a group of ids, each with the cubes of the group. -/
def groupEndpoints (idMask : ℕ) (s : Collected) (group : List ℕ × List ℕ) : List PacketConnection :=
  group.1.flatMap fun path => (s.paths[path]?).toList.flatMap fun p =>
    (disjointCubes idMask group.2).map fun cube =>
      { portConnection := p.portConnection
        mv := cube
        vias := p.vias
        usedOps := (group.2.filter fun id => decide (cube.Claims id)).foldl
          (fun ops id => appendNew ops (s.opsTo id path)) []
        isPacket := true }

/-- The ids in order, traced one by one. -/
def collect (endpoints : List PacketConnection) (idMask : ℕ)
    (trace : MaskValue → List PacketConnection) (emitVias : Bool) : Collected :=
  let same := if emitVias then samePath else sameDest
  let paths := (endpoints.filter PacketConnection.isPacket).foldl
    (fun paths c => (pathIndex same paths c).2) []
  (List.range (idMask + 1)).foldl (collectId same fun id => trace ⟨idMask, id⟩) { paths }

@[grind =] def exactPacketEndpoints (endpoints : List PacketConnection) (idMask : ℕ)
    (trace : MaskValue → List PacketConnection) (emitVias : Bool) : List PacketConnection :=
  if endpoints.all fun c => !c.isPacket then endpoints
  else
    let s := collect endpoints idMask trace emitVias
    endpoints.filter (fun c => !c.isPacket) ++
      (s.idsByDests.toList.insertionSort fun a b => a.2.headI ≤ b.2.headI).flatMap
        (groupEndpoints idMask s)

namespace Device

/-- The endpoints of a port of a tile, for at most a number of connections a trace. -/
def liftedEndpoints (D : Device) (keepPartialFlows emitVias : Bool) (idMask fuel tile : ℕ)
    (port : Route.Port) : Option (List PacketConnection) := do
  let endpoints ← D.getConnectedTiles keepPartialFlows fuel tile port ⟨0, 0⟩
  let traces ← (List.range (idMask + 1)).mapM fun id =>
    D.getConnectedTiles keepPartialFlows fuel tile port ⟨idMask, id⟩
  return exactPacketEndpoints endpoints idMask (fun claim => traces.getD claim.value []) emitVias

end Device

/-! ## Paths -/

@[grind =] def dests (cs : List PacketConnection) : List PortConnection :=
  cs.map PacketConnection.portConnection

theorem pathIndex_spec (paths : List PacketConnection) (c : PacketConnection) :
    dests paths <+: dests (pathIndex sameDest paths c).2 ∧
      (dests (pathIndex sameDest paths c).2)[(pathIndex sameDest paths c).1]? =
        some c.portConnection ∧
      ((dests paths).Nodup → (dests (pathIndex sameDest paths c).2).Nodup) := by
  rw [pathIndex]
  cases hfind : paths.findIdx? fun p => sameDest c p with
  | some i =>
    obtain ⟨hi, hsame, _⟩ := List.findIdx?_eq_some_iff_getElem.1 hfind
    refine ⟨List.prefix_rfl, ?_, id⟩
    rw [dests, List.getElem?_map, List.getElem?_eq_getElem hi, Option.map_some]
    rw [sameDest, beq_iff_eq] at hsame
    rw [hsame]
  | none =>
    have hnew : c.portConnection ∉ dests paths := by
      intro hmem
      obtain ⟨p, hp, heq⟩ := List.mem_map.1 hmem
      have := List.findIdx?_eq_none_iff.1 hfind p hp
      simp [sameDest, heq] at this
    have hdests : dests (paths ++ [c]) = dests paths ++ [c.portConnection] := List.map_append
    refine ⟨hdests ▸ List.prefix_append _ _, ?_, fun h => ?_⟩
    · show (dests (paths ++ [c]))[paths.length]? = _
      rw [hdests, List.getElem?_append_right (by simp [dests])]
      simp [dests]
    · show (dests (paths ++ [c])).Nodup
      rw [hdests, List.nodup_append]
      refine ⟨h, List.nodup_singleton _, ?_⟩
      rintro a ha b hb rfl
      exact hnew (List.mem_singleton.1 hb ▸ ha)

def Reached (ds : List PortConnection) (cs : List PacketConnection) (path : ℕ) : Prop :=
  ∃ c ∈ cs, c.isPacket = true ∧ ds[path]? = some c.portConnection

/-- The destinations of a trace's packets have paths. -/
def Covers (ds : List PortConnection) (cs : List PacketConnection) : Prop :=
  ∀ c ∈ cs, c.isPacket = true → c.portConnection ∈ ds

theorem Covers.mono {ds ds' : List PortConnection} {cs : List PacketConnection} (h : Covers ds cs)
    (hpre : ds <+: ds') : Covers ds' cs :=
  fun c hc hpacket => hpre.subset (h c hc hpacket)

theorem reached_iff_of_prefix {ds ds' : List PortConnection} {cs : List PacketConnection}
    (h : Covers ds cs) (hpre : ds <+: ds') (hnodup : ds'.Nodup) (path : ℕ) :
    Reached ds' cs path ↔ Reached ds cs path := by
  constructor
  · rintro ⟨c, hc, hpacket, hpath⟩
    refine ⟨c, hc, hpacket, ?_⟩
    obtain ⟨i, hi, hget⟩ := List.mem_iff_getElem.1 (h c hc hpacket)
    have hget' : ds'[i]? = some c.portConnection := by
      obtain ⟨tail, rfl⟩ := hpre
      rw [List.getElem?_append_left hi, List.getElem?_eq_getElem hi, hget]
    have hlt : path < ds'.length := (List.getElem?_eq_some_iff.1 hpath).1
    have heq : path = i := (List.getElem?_inj hlt hnodup).1 (hpath.trans hget'.symm)
    rw [heq, List.getElem?_eq_getElem hi, hget]
  · rintro ⟨c, hc, hpacket, hpath⟩
    refine ⟨c, hc, hpacket, ?_⟩
    obtain ⟨tail, rfl⟩ := hpre
    rw [List.getElem?_append_left (List.getElem?_eq_some_iff.1 hpath).1, hpath]

/-! ## Tracing an id -/

structure Tracing (s₀ : Collected) (done : List PacketConnection) (s : Collected × List ℕ) :
    Prop where
  grows : dests s₀.paths <+: dests s.1.paths
  nodup : (dests s.1.paths).Nodup
  groups : s.1.idsByDests = s₀.idsByDests
  covers : Covers (dests s.1.paths) done
  reached : ∀ path, path ∈ s.2 ↔ Reached (dests s.1.paths) done path
  distinct : s.2.Nodup

theorem Tracing.collectOne {s₀ : Collected} {done : List PacketConnection} {s : Collected × List ℕ}
    (h : Tracing s₀ done s) (id : ℕ) (c : PacketConnection) :
    Tracing s₀ (done ++ [c]) (collectOne sameDest id s c) := by
  rw [Flows.collectOne]
  by_cases hpacket : c.isPacket = true
  · simp only [hpacket, Bool.not_true, Bool.false_eq_true, ↓reduceIte]
    obtain ⟨hpre, hpath, hkeep⟩ := pathIndex_spec s.1.paths c
    have hnodup := hkeep h.nodup
    have hcovers := h.covers.mono hpre
    refine ⟨h.grows.trans hpre, hnodup, h.groups, fun d hd hdpacket => ?_, fun path => ?_, ?_⟩
    · rcases List.mem_append.1 hd with hd | hd
      · exact hcovers d hd hdpacket
      · rw [List.mem_singleton.1 hd]
        exact List.mem_of_getElem? hpath
    · have hmem : path ∈ (if (pathIndex sameDest s.1.paths c).1 ∈ s.2 then s.2
          else s.2 ++ [(pathIndex sameDest s.1.paths c).1]) ↔
            path ∈ s.2 ∨ path = (pathIndex sameDest s.1.paths c).1 := by
        split_ifs with hin
        · exact ⟨.inl, fun hp => hp.elim (fun hp => hp) fun heq => heq ▸ hin⟩
        · rw [List.mem_append, List.mem_singleton]
      rw [hmem, h.reached, ← reached_iff_of_prefix h.covers hpre hnodup]
      constructor
      · rintro (⟨d, hd, hreach⟩ | rfl)
        · exact ⟨d, List.mem_append_left _ hd, hreach⟩
        · exact ⟨c, List.mem_append_right _ (List.mem_singleton_self c), hpacket, hpath⟩
      · rintro ⟨d, hd, hdpacket, hdpath⟩
        rcases List.mem_append.1 hd with hd | hd
        · exact .inl ⟨d, hd, hdpacket, hdpath⟩
        · obtain rfl := List.mem_singleton.1 hd
          have hlt := (List.getElem?_eq_some_iff.1 hdpath).1
          exact .inr ((List.getElem?_inj hlt hnodup).1 (hdpath.trans hpath.symm))
    · show (if _ then s.2 else _).Nodup
      split_ifs with hin
      · exact h.distinct
      · refine List.nodup_append.2 ⟨h.distinct, List.nodup_singleton _, ?_⟩
        rintro a ha b hb rfl
        exact hin (List.mem_singleton.1 hb ▸ ha)
  · simp only [hpacket, Bool.not_false, ↓reduceIte]
    refine ⟨h.grows, h.nodup, h.groups, fun d hd hdpacket => ?_, fun path => ?_, h.distinct⟩
    · rcases List.mem_append.1 hd with hd | hd
      · exact h.covers d hd hdpacket
      · exact absurd (List.mem_singleton.1 hd ▸ hdpacket) hpacket
    · rw [h.reached]
      constructor
      · rintro ⟨d, hd, hreach⟩
        exact ⟨d, List.mem_append_left _ hd, hreach⟩
      · rintro ⟨d, hd, hdpacket, hdpath⟩
        rcases List.mem_append.1 hd with hd | hd
        · exact ⟨d, hd, hdpacket, hdpath⟩
        · exact absurd (List.mem_singleton.1 hd ▸ hdpacket) hpacket

theorem Tracing.foldl {s₀ : Collected} {done : List PacketConnection} {s : Collected × List ℕ}
    (h : Tracing s₀ done s) (cs : List PacketConnection) (id : ℕ) :
    Tracing s₀ (done ++ cs) (cs.foldl (Flows.collectOne sameDest id) s) := by
  induction cs generalizing done s with
  | nil => rwa [List.append_nil]
  | cons c cs ih =>
    rw [List.append_cons]
    exact ih (h.collectOne id c)

/-! ## Grouping the ids -/

/-- What tracing the ids one after another keeps: each group holds ids that reach the paths of its
key, and every id that reaches a path is in a group. -/
structure Grouped (trace : ℕ → List PacketConnection) (ids : List ℕ) (s : Collected) : Prop where
  nodup : (dests s.paths).Nodup
  covers : ∀ id ∈ ids, Covers (dests s.paths) (trace id)
  sound : ∀ (key group : List ℕ), s.idsByDests[key]? = some group → key.Pairwise (· < ·) ∧
    ∀ id ∈ group, id ∈ ids ∧ ∀ path, path ∈ key ↔ Reached (dests s.paths) (trace id) path
  complete : ∀ id ∈ ids, ∀ c ∈ trace id, c.isPacket = true →
    ∃ key group : List ℕ, s.idsByDests[key]? = some group ∧ id ∈ group

theorem Grouped.collectId {trace : ℕ → List PacketConnection} {ids : List ℕ} {s : Collected}
    (h : Grouped trace ids s) (id : ℕ) :
    Grouped trace (ids ++ [id]) (collectId sameDest trace s id) := by
  have hstart : Tracing s [] (s, []) :=
    ⟨List.prefix_rfl, h.nodup, rfl, fun c hc => (List.not_mem_nil hc).elim,
      fun path => by simp [Reached], List.nodup_nil⟩
  have htrace := hstart.foldl (trace id) id
  rw [List.nil_append] at htrace
  rw [Flows.collectId]
  set r := (trace id).foldl (Flows.collectOne sameDest id) (s, [])
  have hpaths : (addId r.1 id r.2).paths = r.1.paths := by
    rw [addId]
    split_ifs <;> rfl
  have hcovers : ∀ i ∈ ids ++ [id], Covers (dests r.1.paths) (trace i) := by
    intro i hi
    rcases List.mem_append.1 hi with hi | hi
    · exact (h.covers i hi).mono htrace.grows
    · rw [List.mem_singleton.1 hi]
      exact htrace.covers
  have hstable : ∀ i ∈ ids, ∀ path, Reached (dests r.1.paths) (trace i) path ↔
      Reached (dests s.paths) (trace i) path := fun i hi path =>
    reached_iff_of_prefix (h.covers i hi) htrace.grows htrace.nodup path
  have hold : ∀ (key group : List ℕ), r.1.idsByDests[key]? = some group → key.Pairwise (· < ·) ∧
      ∀ i ∈ group, i ∈ ids ++ [id] ∧
        ∀ path, path ∈ key ↔ Reached (dests r.1.paths) (trace i) path := by
    intro key group hkey
    rw [htrace.groups] at hkey
    obtain ⟨hsorted, hgroup⟩ := h.sound key group hkey
    refine ⟨hsorted, fun i hi => ⟨List.mem_append_left _ (hgroup i hi).1, fun path => ?_⟩⟩
    rw [hstable i (hgroup i hi).1]
    exact (hgroup i hi).2 path
  refine ⟨hpaths ▸ htrace.nodup, hpaths ▸ hcovers, ?_, ?_⟩
  · rw [hpaths, addId]
    split_ifs with hnone
    · exact hold
    · intro key group hkey
      rw [Std.TreeMap.getElem?_insert] at hkey
      split_ifs at hkey with heq
      · rw [Std.compare_eq_iff_eq] at heq
        subst heq
        cases hkey
        refine ⟨(List.pairwise_insertionSort (· ≤ ·) r.2).imp₂ (fun _ _ => lt_of_le_of_ne)
          ((List.perm_insertionSort _ _).nodup_iff.2 htrace.distinct), fun i hi => ?_⟩
        rcases List.mem_append.1 hi with hi | hi
        · rw [Std.TreeMap.getD_eq_getD_getElem?] at hi
          cases hget : r.1.idsByDests[r.2.insertionSort (· ≤ ·)]? with
          | none => simp [hget] at hi
          | some old =>
            rw [hget, Option.getD_some] at hi
            exact (hold _ old hget).2 i hi
        · obtain rfl := List.mem_singleton.1 hi
          refine ⟨List.mem_append_right _ hi, fun path => ?_⟩
          rw [List.mem_insertionSort]
          exact htrace.reached path
      · exact hold key group hkey
  · intro i hi c hc hpacket
    have hin : ∀ key group : List ℕ, r.1.idsByDests[key]? = some group → i ∈ group →
        ∃ key group : List ℕ, (addId r.1 id r.2).idsByDests[key]? = some group ∧ i ∈ group := by
      intro key group hkey hmem
      rw [addId]
      split_ifs with hnone
      · exact ⟨key, group, hkey, hmem⟩
      · by_cases heq : r.2.insertionSort (· ≤ ·) = key
        · refine ⟨key, group ++ [id], ?_, List.mem_append_left _ hmem⟩
          simp only [heq, Std.TreeMap.getElem?_insert_self, Std.TreeMap.getD_eq_getD_getElem?, hkey,
            Option.getD_some]
        · refine ⟨key, group, ?_, hmem⟩
          rw [Std.TreeMap.getElem?_insert, if_neg fun hcmp => heq (Std.compare_eq_iff_eq.1 hcmp)]
          exact hkey
    rcases List.mem_append.1 hi with hi | hi
    · obtain ⟨key, group, hkey, hmem⟩ := h.complete i hi c hc hpacket
      exact hin key group (htrace.groups ▸ hkey) hmem
    · obtain rfl := List.mem_singleton.1 hi
      have hne : r.2 ≠ [] := by
        obtain ⟨path, hpath, hget⟩ := List.mem_iff_getElem.1 (htrace.covers c hc hpacket)
        refine List.ne_nil_of_mem ((htrace.reached path).2 ⟨c, hc, hpacket, ?_⟩)
        rw [List.getElem?_eq_getElem hpath, hget]
      rw [addId, if_neg hne]
      exact ⟨_, _, Std.TreeMap.getElem?_insert_self,
        List.mem_append_right _ (List.mem_singleton_self i)⟩

theorem Grouped.foldl {trace : ℕ → List PacketConnection} {done ids : List ℕ} {s : Collected}
    (h : Grouped trace done s) :
    Grouped trace (done ++ ids) (ids.foldl (Flows.collectId sameDest trace) s) := by
  induction ids generalizing done s with
  | nil => rwa [List.append_nil]
  | cons id ids ih =>
    rw [List.append_cons]
    exact ih (h.collectId id)

/-! ## The endpoints -/

variable {endpoints : List PacketConnection} {k : ℕ} {trace : MaskValue → List PacketConnection}

theorem grouped_collect (endpoints : List PacketConnection) (k : ℕ)
    (trace : MaskValue → List PacketConnection) :
    Grouped (fun id => trace ⟨2 ^ k - 1, id⟩) (List.range (2 ^ k - 1 + 1))
      (collect endpoints (2 ^ k - 1) trace false) := by
  have hpaths : ∀ (cs ps : List PacketConnection), (dests ps).Nodup →
      (dests (cs.foldl (fun paths c => (pathIndex sameDest paths c).2) ps)).Nodup := by
    intro cs
    induction cs with
    | nil => exact fun ps h => h
    | cons c cs ih => exact fun ps h => ih _ ((pathIndex_spec ps c).2.2 h)
  rw [collect]
  rw [← List.nil_append (List.range (2 ^ k - 1 + 1))]
  refine Grouped.foldl ⟨?_, fun id hid => (List.not_mem_nil hid).elim,
    fun key group hkey => ?_, fun id hid => (List.not_mem_nil hid).elim⟩
  · exact hpaths _ [] List.nodup_nil
  · simp at hkey

theorem mem_groupEndpoints {s : Collected} {idMask : ℕ} {key group : List ℕ}
    {r : PacketConnection} (h : r ∈ groupEndpoints idMask s (key, group)) :
    r.isPacket = true ∧ r.mv ∈ disjointCubes idMask group ∧
      ∃ path ∈ key, (dests s.paths)[path]? = some r.portConnection := by
  obtain ⟨path, hpath, h⟩ := List.mem_flatMap.1 h
  obtain ⟨p, hp, h⟩ := List.mem_flatMap.1 h
  obtain ⟨cube, hcube, rfl⟩ := List.mem_map.1 h
  refine ⟨rfl, hcube, path, hpath, ?_⟩
  rw [dests, List.getElem?_map, Option.mem_toList.1 hp, Option.map_some]

theorem exists_mem_groupEndpoints {s : Collected} {idMask : ℕ} {key group : List ℕ} {path : ℕ}
    {d : PortConnection} {cube : MaskValue} (hpath : path ∈ key)
    (hd : (dests s.paths)[path]? = some d) (hcube : cube ∈ disjointCubes idMask group) :
    ∃ r ∈ groupEndpoints idMask s (key, group), r.mv = cube ∧ r.portConnection = d := by
  rw [dests, List.getElem?_map, Option.map_eq_some_iff] at hd
  obtain ⟨p, hp, rfl⟩ := hd
  exact ⟨_, List.mem_flatMap.2 ⟨path, hpath, List.mem_flatMap.2
    ⟨p, Option.mem_toList.2 hp, List.mem_map.2 ⟨cube, hcube, rfl⟩⟩⟩, rfl, rfl⟩

theorem mem_exactPacketEndpoints (hsome : ∃ c ∈ endpoints, c.isPacket = true)
    {r : PacketConnection} :
    r ∈ exactPacketEndpoints endpoints (2 ^ k - 1) trace false ∧ r.isPacket = true ↔
      ∃ key group : List ℕ, (collect endpoints (2 ^ k - 1) trace false).idsByDests[key]? = some group ∧
        r ∈ groupEndpoints (2 ^ k - 1) (collect endpoints (2 ^ k - 1) trace false) (key, group) := by
  have hall : ¬ (endpoints.all fun c => !c.isPacket) = true := by
    obtain ⟨c, hc, hpacket⟩ := hsome
    intro h
    have := List.all_eq_true.1 h c hc
    simp [hpacket] at this
  rw [exactPacketEndpoints, if_neg hall, List.mem_append, List.mem_flatMap]
  constructor
  · rintro ⟨hr | ⟨⟨key, group⟩, hgroup, hr⟩, hpacket⟩
    · have := (List.mem_filter.1 hr).2
      simp [hpacket] at this
    · rw [List.mem_insertionSort, Std.TreeMap.mem_toList_iff_getElem?_eq_some] at hgroup
      exact ⟨key, group, hgroup, hr⟩
  · rintro ⟨key, group, hgroup, hr⟩
    refine ⟨.inr ⟨(key, group), ?_, hr⟩, (mem_groupEndpoints hr).1⟩
    rw [List.mem_insertionSort, Std.TreeMap.mem_toList_iff_getElem?_eq_some]
    exact hgroup

theorem mem_circuit_exactPacketEndpoints {r : PacketConnection} {idMask : ℕ} {emitVias : Bool}
    (hr : r.isPacket = false) :
    r ∈ exactPacketEndpoints endpoints idMask trace emitVias ↔ r ∈ endpoints := by
  rw [exactPacketEndpoints]
  split_ifs with hall
  · exact Iff.rfl
  · rw [List.mem_append, List.mem_filter, List.mem_flatMap]
    simp only [hr, Bool.not_false, and_true, or_iff_left_iff_imp]
    rintro ⟨⟨key, group⟩, _, hmem⟩
    have := (mem_groupEndpoints hmem).1
    rw [hr] at this
    cases this

/-- Packet endpoints come from packet endpoints. -/
theorem exists_packet {r : PacketConnection} {idMask : ℕ} {emitVias : Bool}
    (hr : r ∈ exactPacketEndpoints endpoints idMask trace emitVias) (hpacket : r.isPacket = true) :
    ∃ c ∈ endpoints, c.isPacket = true := by
  by_contra hnone
  have hall : (endpoints.all fun c => !c.isPacket) = true := by
    rw [List.all_eq_true]
    intro c hc
    rw [Bool.not_eq_true', ← Bool.not_eq_true]
    exact fun hp => hnone ⟨c, hc, hp⟩
  rw [exactPacketEndpoints, if_pos hall] at hr
  exact hnone ⟨r, hr, hpacket⟩

theorem group_le {key group : List ℕ}
    (h : (collect endpoints (2 ^ k - 1) trace false).idsByDests[key]? = some group) :
    ∀ id ∈ group, id ≤ 2 ^ k - 1 := fun id hid =>
  Nat.le_of_lt_succ (List.mem_range.1 (((grouped_collect _ _ _).sound key group h).2 id hid).1)

theorem key_eq_of_mem {key key' group group' : List ℕ} {id : ℕ}
    (h : (collect endpoints (2 ^ k - 1) trace false).idsByDests[key]? = some group)
    (h' : (collect endpoints (2 ^ k - 1) trace false).idsByDests[key']? = some group')
    (hid : id ∈ group) (hid' : id ∈ group') : key = key' := by
  obtain ⟨hsorted, hgroup⟩ := (grouped_collect _ _ _).sound key group h
  obtain ⟨hsorted', hgroup'⟩ := (grouped_collect _ _ _).sound key' group' h'
  refine hsorted.eq_of_mem_iff hsorted' fun path => ?_
  rw [(hgroup id hid).2 path, (hgroup' id hid').2 path]

/-- **A packet endpoint is claimed for an id exactly where the trace of the id ends as a packet.**
-/
theorem exactPacketEndpoints_claims
    (hsome : ∀ id ≤ 2 ^ k - 1, ∀ c ∈ trace ⟨2 ^ k - 1, id⟩, c.isPacket = true →
      ∃ e ∈ endpoints, e.isPacket = true) {id : ℕ} (hid : id ≤ 2 ^ k - 1) {d : PortConnection} :
    (∃ r ∈ exactPacketEndpoints endpoints (2 ^ k - 1) trace false, r.isPacket = true ∧
      r.mv.Claims id ∧ r.portConnection = d) ↔
        ∃ c ∈ trace ⟨2 ^ k - 1, id⟩, c.isPacket = true ∧ c.portConnection = d := by
  have hgrouped := grouped_collect endpoints k trace
  constructor
  · rintro ⟨r, hr, hpacket, hclaims, rfl⟩
    obtain ⟨key, group, hkey, hr⟩ :=
      (mem_exactPacketEndpoints (exists_packet hr hpacket)).1 ⟨hr, hpacket⟩
    obtain ⟨_, hcube, path, hpath, hget⟩ := mem_groupEndpoints hr
    have hmem : id ∈ group :=
      (disjointCubes_claims (group_le hkey) hid).1 ⟨r.mv, hcube, hclaims⟩
    obtain ⟨c, hc, hcpacket, hcget⟩ :=
      (((hgrouped.sound key group hkey).2 id hmem).2 path).1 hpath
    rw [hget, Option.some.injEq] at hcget
    exact ⟨c, hc, hcpacket, hcget.symm⟩
  · rintro ⟨c, hc, hpacket, rfl⟩
    have hrange : id ∈ List.range (2 ^ k - 1 + 1) := List.mem_range.2 (Nat.lt_succ_of_le hid)
    obtain ⟨key, group, hkey, hmem⟩ := hgrouped.complete id hrange c hc hpacket
    obtain ⟨path, hpath, hget⟩ :=
      List.mem_iff_getElem.1 (hgrouped.covers id hrange c hc hpacket)
    have hget' : (dests (collect endpoints (2 ^ k - 1) trace false).paths)[path]? =
        some c.portConnection := by rw [List.getElem?_eq_getElem hpath, hget]
    have hin : path ∈ key :=
      (((hgrouped.sound key group hkey).2 id hmem).2 path).2 ⟨c, hc, hpacket, hget'⟩
    obtain ⟨cube, hcube, hclaims⟩ :=
      (disjointCubes_claims (group_le hkey) hid).2 hmem
    obtain ⟨r, hr, hmv, hdest⟩ := exists_mem_groupEndpoints hin hget' hcube
    obtain ⟨hr, hrpacket⟩ :=
      (mem_exactPacketEndpoints (hsome id hid c hc hpacket)).2 ⟨key, group, hkey, hr⟩
    exact ⟨r, hr, hrpacket, hmv ▸ hclaims, hdest⟩

def cubeDests (result : List PacketConnection) (cube : MaskValue) : Set PortConnection :=
  {d | ∃ r ∈ result, r.isPacket = true ∧ r.mv = cube ∧ r.portConnection = d}

theorem cubeDests_eq (hsome : ∃ c ∈ endpoints, c.isPacket = true) {key group : List ℕ}
    {cube : MaskValue}
    (hkey : (collect endpoints (2 ^ k - 1) trace false).idsByDests[key]? = some group)
    (hcube : cube ∈ disjointCubes (2 ^ k - 1) group) :
    cubeDests (exactPacketEndpoints endpoints (2 ^ k - 1) trace false) cube =
      {d | ∃ path ∈ key,
        (dests (collect endpoints (2 ^ k - 1) trace false).paths)[path]? = some d} := by
  ext d
  constructor
  · rintro ⟨r, hr, hpacket, rfl, rfl⟩
    obtain ⟨key', group', hkey', hr⟩ := (mem_exactPacketEndpoints hsome).1 ⟨hr, hpacket⟩
    obtain ⟨_, hcube', hdest⟩ := mem_groupEndpoints hr
    obtain ⟨id, hid, hclaims⟩ := exists_claims_of_mem_disjointCubesFrom (group_le hkey) hcube
    have hmem := (disjointCubes_claims (group_le hkey) hid).1 ⟨r.mv, hcube, hclaims⟩
    have hmem' := (disjointCubes_claims (group_le hkey') hid).1 ⟨r.mv, hcube', hclaims⟩
    rw [key_eq_of_mem hkey hkey' hmem hmem']
    exact hdest
  · rintro ⟨path, hpath, hd⟩
    obtain ⟨r, hr, hmv, hdest⟩ := exists_mem_groupEndpoints hpath hd hcube
    obtain ⟨hr, hpacket⟩ := (mem_exactPacketEndpoints hsome).2 ⟨key, group, hkey, hr⟩
    exact ⟨r, hr, hpacket, hmv, hdest⟩

/-- **Cubes that share an id have the same destinations.** -/
theorem exactPacketEndpoints_disjoint {r r' : PacketConnection}
    (hr : r ∈ exactPacketEndpoints endpoints (2 ^ k - 1) trace false) (hpacket : r.isPacket = true)
    (hr' : r' ∈ exactPacketEndpoints endpoints (2 ^ k - 1) trace false)
    (hpacket' : r'.isPacket = true) {id : ℕ} (hid : id ≤ 2 ^ k - 1) (hclaims : r.mv.Claims id)
    (hclaims' : r'.mv.Claims id) :
    cubeDests (exactPacketEndpoints endpoints (2 ^ k - 1) trace false) r.mv =
      cubeDests (exactPacketEndpoints endpoints (2 ^ k - 1) trace false) r'.mv := by
  have hsome := exists_packet hr hpacket
  obtain ⟨key, group, hkey, hr⟩ := (mem_exactPacketEndpoints hsome).1 ⟨hr, hpacket⟩
  obtain ⟨key', group', hkey', hr'⟩ := (mem_exactPacketEndpoints hsome).1 ⟨hr', hpacket'⟩
  obtain ⟨_, hcube, _⟩ := mem_groupEndpoints hr
  obtain ⟨_, hcube', _⟩ := mem_groupEndpoints hr'
  have hmem := (disjointCubes_claims (group_le hkey) hid).1 ⟨r.mv, hcube, hclaims⟩
  have hmem' := (disjointCubes_claims (group_le hkey') hid).1 ⟨r'.mv, hcube', hclaims'⟩
  rw [cubeDests_eq hsome hkey hcube, cubeDests_eq hsome hkey' hcube',
    key_eq_of_mem hkey hkey' hmem hmem']

end MlirAie.Flows
