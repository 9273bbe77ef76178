import MlirAie.Lib.PathSum
import MlirAie.Route.Graph

/-!
# Boundaries with too few channels

Before it routes, the router counts the channels over each boundary between two rows or two columns,
one way at a time. Each circuit stream that crosses one needs a channel of its own, and the packet
streams one more.

* `Cut`, `channels`, **`cutOverflow`**: the boundaries, the channels over them and the check;
* `Hop`, `Routing`: what a tree of each flow has to do;
* **`cutOverflow_sound`**: where the check fails, the flows have no routing.
-/

namespace MlirAie.Route

open MlirAie.Lib

/-! ## The check -/

/-- A boundary below which rows or columns lie, and whether it is crossed up from there. -/
structure Cut where
  rows : Bool
  below : ℕ
  up : Bool
deriving DecidableEq, Repr

namespace Cut

def between (a b : TileID) : Cut where
  rows := a.col = b.col
  below := if a.col = b.col then min a.row b.row else min a.col b.col
  up := if a.col = b.col then a.row < b.row else a.col < b.col

/-- The order in which boundaries are checked. -/
def le (a b : Cut) : Bool :=
  toLex (a.rows, toLex (a.below, a.up)) ≤ toLex (b.rows, toLex (b.below, b.up))

variable (cut : Cut)

/-- The tiles below. -/
def low (t : TileID) : Bool := (if cut.rows then t.row else t.col) ≤ cut.below

def crossedBy (f : Flow) : Bool :=
  cut.low f.src.tile = cut.up && f.dsts.any fun d => cut.low d.tile ≠ cut.up

end Cut

namespace RoutingGraph

variable (g : RoutingGraph)

def enterable (x : SwitchboxConnect) (port : Port) : Bool :=
  x.dstPorts.contains port && x.srcPorts.any (x.available · port)

/-- The boundary an edge crosses, and its channels that can be entered. -/
def crossing (e : (TileID × TileID) × SwitchboxConnect) : Option (Cut × List Port) :=
  if e.1.1 = e.1.2 ∨ !g.onDevice e.1.1 ∨ !g.onDevice e.1.2 then none
  else (g.crossbar e.1.1).map fun x =>
    (Cut.between e.1.1 e.1.2, e.2.srcPorts.filter (enterable x))

def channels : List (Cut × ℕ) :=
  let crossings := g.switchboxes.filterMap g.crossing
  ((crossings.map (·.1)).dedup.insertionSort fun a b => a.le b).map fun cut =>
    (cut, ((crossings.filter (·.1 = cut)).map (·.2.length)).sum)

end RoutingGraph

/-- Names as messages list them, at most four. -/
def joinNames (names : List String) : String :=
  let more := names.length - 4
  let listed := names.take (names.length - more)
  let list := String.join (listed.zipIdx.map fun (name, i) =>
    (if i = 0 then "" else if i + 1 = listed.length ∧ more = 0 then " and " else ", ") ++ name)
  if more = 0 then list else list ++ " and " ++ toString more ++ " more"

/-- Packet streams no two of which may share an arbiter, and why. -/
structure PacketsApart where
  flows : List String := []
  why : String := ""

/-- Why a boundary has too few channels, if it has. -/
def overflowAt (apartAcross : Option ((TileID → Bool) → Bool → ℕ → PacketsApart))
    (flows : List Flow) (cut : Cut) (available : ℕ) : Option String :=
  let crossing := flows.filter cut.crossedBy
  let circuits := (crossing.filter (·.packetId.isNone)).map fun f => describeTilePort f.src
  let packets := crossing.any (·.packetId.isSome)
  let apart : PacketsApart :=
    if packets ∧ circuits.length < available then
      apartAcross.elim {} fun across => across cut.low cut.up (available - circuits.length)
    else {}
  let needed := circuits.length + max packets.toNat apart.flows.length
  if needed ≤ available then none
  else
    let from' := if cut.up then cut.below else cut.below + 1
    let to' := if cut.up then cut.below + 1 else cut.below
    let channel := fun n : ℕ => if n = 1 then "channel" else "channels"
    let who := if circuits = [] then "" else "the circuit flows from " ++ joinNames circuits
    let who :=
      if 1 < apart.flows.length then
        who ++ (if circuits = [] then "" else ", and ") ++ joinNames apart.flows ++
          ", no two of which can share an arbiter,"
      else if packets then
        if circuits = [] then "the packet flows" else who ++ ", with packet flows,"
      else who
    let why := if 1 < apart.flows.length then " For example, " ++ apart.why else ""
    let dim := if cut.rows then "row" else "column"
    some (who ++ " cross from " ++ dim ++ " " ++ toString from' ++ " to " ++ dim ++ " " ++
      toString to' ++ ", which takes " ++ toString needed ++ " " ++ channel needed ++
      " across, and it has " ++ toString available ++ " " ++ channel available ++ "." ++ why)

/-- **The check of every boundary**, before anything is routed. -/
def cutOverflow (apartAcross : Option ((TileID → Bool) → Bool → ℕ → PacketsApart))
    (g : RoutingGraph) (flows : List Flow) : Except String Unit :=
  match g.channels.findSome? fun c => overflowAt apartAcross flows c.1 c.2 with
  | some reason => .error reason
  | none => .ok ()

/-! ## Routings -/

/-- A channel: the tiles it goes from and to, and the port it leaves by. -/
abbrev Channel := TileID × TileID × Port

/-- A step of a tree: through an available cell of a crossbar, or along a channel of the tree. -/
inductive Hop (g : RoutingGraph) (tree : Set Channel) :
    PhysPort × PortSide → PhysPort × PortSide → Prop
  | cell {t : TileID} {x : SwitchboxConnect} {p q : Port} (hx : g.crossbar t = some x)
      (hp : p ∈ x.srcPorts) (hq : q ∈ x.dstPorts) (havailable : x.available p q = true) :
      Hop g tree (⟨t, p⟩, .In) (⟨t, q⟩, .Out)
  | channel {a b : TileID} {sb : SwitchboxConnect} {p q : Port} (hne : a ≠ b)
      (hsb : ((a, b), sb) ∈ g.switchboxes) (hpq : (p, q) ∈ sb.srcPorts.zip sb.dstPorts)
      (htree : (a, b, p) ∈ tree) : Hop g tree (⟨a, p⟩, .Out) (⟨b, q⟩, .In)

/-- A tree for each flow: a circuit's has its channels to itself, and all reach their destinations. -/
structure Routing (g : RoutingGraph) (flows : List Flow) (trees : ℕ → Set Channel) : Prop where
  exclusive : ∀ i f j f', flows[i]? = some f → flows[j]? = some f' → i ≠ j →
    f.packetId = none → Disjoint (trees i) (trees j)
  reaches : ∀ i f, flows[i]? = some f → ∀ d ∈ f.dsts,
    Relation.ReflTransGen (Hop g (trees i)) (f.src, .In) (d, .Out)

/-! ## Crossing a boundary -/

variable {g : RoutingGraph} {tree : Set Channel}

theorem Hop.onDevice (hmesh : g.Meshed) {n n' : PhysPort × PortSide} (h : Hop g tree n n')
    (hn : g.onDevice n.1.tile = true) : g.onDevice n'.1.tile = true := by
  cases h with
  | cell => exact hn
  | channel hne hsb hpq _ =>
    refine (hmesh _ hsb hne).2 (fun hnil => ?_) hn
    have := (List.of_mem_zip hpq).1
    rw [hnil] at this
    cases this

theorem reaches_onDevice (hmesh : g.Meshed) {n n' : PhysPort × PortSide}
    (h : Relation.ReflTransGen (Hop g tree) n n') (hn : g.onDevice n.1.tile = true) :
    g.onDevice n'.1.tile = true := by
  induction h with
  | refl => exact hn
  | tail _ hstep ih => exact hstep.onDevice hmesh ih

theorem Adjacent.between_eq {cut : Cut} {a b : TileID} (h : Adjacent a b)
    (ha : cut.low a = cut.up) (hb : cut.low b ≠ cut.up) : Cut.between a b = cut := by
  obtain ⟨rows, below, up⟩ := cut
  obtain ⟨ac, ar⟩ := a
  obtain ⟨bc, br⟩ := b
  simp only [Adjacent] at h
  cases rows <;> cases up <;>
    simp only [Cut.low, Cut.between, Cut.mk.injEq, ne_eq, decide_eq_true_eq,
      decide_eq_false_iff_not, Bool.false_eq_true, if_false, if_true] at ha hb ⊢ <;>
    grind

def entered (g : RoutingGraph) (cut : Cut) : List Channel :=
  g.switchboxes.flatMap fun e =>
    (g.crossing e).elim [] fun c => if c.1 = cut then c.2.map (e.1.1, e.1.2, ·) else []

/-- The channels over a boundary are as many as the check counts. -/
theorem length_entered {cut : Cut} {n : ℕ} (h : (cut, n) ∈ g.channels) :
    (entered g cut).length = n := by
  obtain ⟨cut', -, heq⟩ := List.mem_map.1 h
  obtain ⟨rfl, rfl⟩ := Prod.mk.inj heq
  rw [entered, List.length_flatMap]
  generalize g.switchboxes = l
  induction l with
  | nil => rfl
  | cons e l ih =>
    rw [List.map_cons, List.sum_cons, ih]
    cases hcross : g.crossing e with
    | none => rw [List.filterMap_cons_none hcross, Option.elim_none, List.length_nil, Nat.zero_add]
    | some c =>
      rw [List.filterMap_cons_some hcross, Option.elim_some]
      by_cases hc : c.1 = cut'
      · rw [if_pos hc, List.filter_cons_of_pos (by simpa using hc), List.map_cons, List.sum_cons,
          List.length_map]
      · rw [if_neg hc, List.filter_cons_of_neg (by simpa using hc), List.length_nil, Nat.zero_add]

/-- **A tree that crosses a boundary** uses one of its channels. -/
theorem exists_channel (hmesh : g.Meshed) {cut : Cut} {src dst : PhysPort}
    (hsrc : g.onDevice src.tile = true) (hlow : cut.low src.tile = cut.up)
    (hhigh : cut.low dst.tile ≠ cut.up)
    (h : Relation.ReflTransGen (Hop g tree) (src, .In) (dst, .Out)) :
    ∃ c ∈ (entered g cut).toFinset, c ∈ tree := by
  obtain ⟨n, n', hreach, hstep, hn, hn'⟩ :=
    exists_crossing (s := {n : PhysPort × PortSide | cut.low n.1.tile = cut.up}) h hlow hhigh
  have hon := reaches_onDevice hmesh hreach hsrc
  have hon' := hstep.onDevice hmesh hon
  cases hstep with
  | cell => exact absurd hn hn'
  | @channel a b sb p q hne hsb hpq htree =>
    refine ⟨(a, b, p), ?_, htree⟩
    -- the port it leaves by was entered through a cell
    obtain ⟨x, hx, henter⟩ : ∃ x, g.crossbar a = some x ∧ RoutingGraph.enterable x p = true := by
      rcases Relation.ReflTransGen.cases_tail hreach with heq | ⟨m, -, hlast⟩
      · cases heq
      · cases hlast with
        | @cell _ x p' _ hx hp' hq havailable =>
          refine ⟨x, hx, ?_⟩
          rw [RoutingGraph.enterable, Bool.and_eq_true, List.contains_iff_mem, List.any_eq_true]
          exact ⟨hq, p', hp', havailable⟩
    have hcross : g.crossing ((a, b), sb) =
        some (cut, sb.srcPorts.filter (RoutingGraph.enterable x)) := by
      rw [RoutingGraph.crossing, if_neg (by simp_all), hx, Option.map_some,
        Adjacent.between_eq (hmesh _ hsb hne).1 hn hn']
    rw [List.mem_toFinset, entered, List.mem_flatMap]
    refine ⟨_, hsb, ?_⟩
    rw [hcross, Option.elim_some, if_pos rfl]
    exact List.mem_map_of_mem (List.mem_filter.2 ⟨(List.of_mem_zip hpq).1, henter⟩)

def placesOf (p : Flow → Bool) (flows : List Flow) : List ℕ :=
  (flows.zipIdx.filter fun f => p f.1).map (·.2)

theorem length_placesOf (p : Flow → Bool) (flows : List Flow) :
    (placesOf p flows).length = (flows.filter p).length := by
  have h := congrArg List.length (List.filter_map (p := p) (f := Prod.fst) (l := flows.zipIdx))
  rw [List.zipIdx_map_fst, List.length_map] at h
  rw [placesOf, List.length_map, h]
  rfl

theorem nodup_placesOf (p : Flow → Bool) (flows : List Flow) : (placesOf p flows).Nodup := by
  refine (List.filter_sublist.map Prod.snd).nodup ?_
  rw [List.zipIdx_map_snd]
  exact List.nodup_range'

theorem mem_placesOf {p : Flow → Bool} {flows : List Flow} {i : ℕ} :
    i ∈ placesOf p flows ↔ ∃ f, flows[i]? = some f ∧ p f = true := by
  simp only [placesOf, List.mem_map, List.mem_filter, Prod.exists, List.mem_zipIdx_iff_getElem?]
  constructor
  · rintro ⟨f, j, ⟨hf, hp⟩, rfl⟩
    exact ⟨f, hf, hp⟩
  · rintro ⟨f, hf, hp⟩
    exact ⟨f, i, ⟨hf, hp⟩, rfl⟩

theorem Routing.card_le (hmesh : g.Meshed) {flows : List Flow} {trees : ℕ → Set Channel}
    (h : Routing g flows trees) (hflows : ∀ f ∈ flows, g.onDevice f.src.tile = true) {cut : Cut}
    {users : Finset ℕ}
    (husers : ∀ i ∈ users, ∃ f, flows[i]? = some f ∧ cut.crossedBy f = true)
    (hcircuit : ∀ i ∈ users, ∀ j ∈ users, i ≠ j →
      (∃ f, flows[i]? = some f ∧ f.packetId = none) ∨ ∃ f, flows[j]? = some f ∧ f.packetId = none) :
    users.card ≤ (entered g cut).length := by
  refine le_trans ?_ (List.toFinset_card_le _)
  refine card_le_of_exclusive (u := trees) (fun i hi j hj hne => ?_) fun i hi => ?_
  · obtain ⟨f, hf, -⟩ := husers i hi
    obtain ⟨f', hf', -⟩ := husers j hj
    rcases hcircuit i hi j hj hne with ⟨c, hc, hnone⟩ | ⟨c, hc, hnone⟩
    · exact h.exclusive i c j f' hc hf' hne hnone
    · exact (h.exclusive j c i f hc hf hne.symm hnone).symm
  · obtain ⟨f, hf, hcross⟩ := husers i hi
    simp only [Cut.crossedBy, Bool.and_eq_true, decide_eq_true_eq, List.any_eq_true] at hcross
    obtain ⟨hlow, d, hd, hhigh⟩ := hcross
    exact exists_channel hmesh (hflows f (List.mem_of_getElem? hf)) hlow hhigh
      (h.reaches i f hf d hd)

/-- A boundary that the check finds too narrow has more circuits to cross it, with one more for the
packets, than channels. -/
theorem overflowAt_eq_some {flows : List Flow} {cut : Cut} {n : ℕ} {reason : String}
    (h : overflowAt none flows cut n = some reason) :
    n < (flows.filter fun f => f.packetId.isNone && cut.crossedBy f).length +
      (flows.any fun f => cut.crossedBy f && f.packetId.isSome).toNat := by
  rw [overflowAt] at h
  simp only [Option.elim_none, ite_self, List.length_nil, Nat.max_zero, List.length_map,
    List.filter_filter, List.any_filter] at h
  refine lt_of_not_ge fun hle => ?_
  rw [if_pos hle] at h
  cases h

/-- The circuits that cross a boundary, and one of the packet flows that do. -/
theorem exists_users (flows : List Flow) (cut : Cut) : ∃ users : Finset ℕ,
    users.card = (flows.filter fun f => f.packetId.isNone && cut.crossedBy f).length +
      (flows.any fun f => cut.crossedBy f && f.packetId.isSome).toNat ∧
    (∀ i ∈ users, ∃ f, flows[i]? = some f ∧ cut.crossedBy f = true) ∧
    ∀ i ∈ users, ∀ j ∈ users, i ≠ j → (∃ f, flows[i]? = some f ∧ f.packetId = none) ∨
      ∃ f, flows[j]? = some f ∧ f.packetId = none := by
  have hmem : ∀ i ∈ (placesOf (fun f => f.packetId.isNone && cut.crossedBy f) flows).toFinset,
      ∃ f, flows[i]? = some f ∧ f.packetId = none ∧ cut.crossedBy f = true := fun i hi => by
    obtain ⟨f, hf, hp⟩ := mem_placesOf.1 (List.mem_toFinset.1 hi)
    rw [Bool.and_eq_true, Option.isNone_iff_eq_none] at hp
    exact ⟨f, hf, hp⟩
  have hcard := List.toFinset_card_of_nodup
    (nodup_placesOf (fun f => f.packetId.isNone && cut.crossedBy f) flows)
  rw [length_placesOf] at hcard
  cases hpackets : flows.any fun f => cut.crossedBy f && f.packetId.isSome with
  | false =>
    refine ⟨_, hcard, fun i hi => ?_, fun i hi j _ _ => ?_⟩
    · obtain ⟨f, hf, -, hcross⟩ := hmem i hi
      exact ⟨f, hf, hcross⟩
    · obtain ⟨f, hf, hnone, -⟩ := hmem i hi
      exact .inl ⟨f, hf, hnone⟩
  | true =>
    obtain ⟨p, hp, hcross⟩ := List.any_eq_true.1 hpackets
    rw [Bool.and_eq_true] at hcross
    obtain ⟨k, hk⟩ := List.mem_iff_getElem?.1 hp
    have hnot : k ∉ (placesOf (fun f => f.packetId.isNone && cut.crossedBy f) flows).toFinset := by
      intro hmemk
      obtain ⟨f, hf, hnone, -⟩ := hmem k hmemk
      obtain rfl := Option.some.inj (hk.symm.trans hf)
      rw [hnone] at hcross
      cases hcross.2
    refine ⟨insert k _, by rw [Finset.card_insert_of_notMem hnot, hcard]; rfl, fun i hi => ?_,
      fun i hi j hj hne => ?_⟩
    · rcases Finset.mem_insert.1 hi with rfl | hi
      · exact ⟨p, hk, hcross.1⟩
      · obtain ⟨f, hf, -, hcross⟩ := hmem i hi
        exact ⟨f, hf, hcross⟩
    · rcases Finset.mem_insert.1 hi with rfl | hi
      · obtain ⟨f, hf, hnone, -⟩ := hmem j ((Finset.mem_insert.1 hj).resolve_left hne.symm)
        exact .inr ⟨f, hf, hnone⟩
      · obtain ⟨f, hf, hnone, -⟩ := hmem i hi
        exact .inl ⟨f, hf, hnone⟩

/-- **The early rejection is sound**: where a boundary has too few channels, whatever the design has
fixed, no trees of the flows cross it on channels of their own. -/
theorem cutOverflow_sound {T : RouteTarget} {excluded : List TileID} {fixed : List FixedSwitchbox}
    {g : RoutingGraph} {flows : List Flow} {reason : String}
    (hgraph : T.runAnalysis excluded fixed = some g)
    (hflows : ∀ f ∈ flows, g.onDevice f.src.tile = true)
    (h : cutOverflow none g flows = .error reason) :
    ¬ ∃ trees, Routing g flows trees := by
  rintro ⟨trees, hrouting⟩
  have hmesh := RouteTarget.runAnalysis_meshed hgraph
  obtain ⟨c, hc, hoverflow⟩ : ∃ c ∈ g.channels, overflowAt none flows c.1 c.2 = some reason := by
    rw [cutOverflow] at h
    cases hfind : g.channels.findSome? fun c => overflowAt none flows c.1 c.2 with
    | none =>
      rw [hfind] at h
      cases h
    | some why =>
      rw [hfind] at h
      obtain rfl := Except.error.inj h
      obtain ⟨l, c, l', hl, hc, -⟩ := List.findSome?_eq_some_iff.mp hfind
      exact ⟨c, by rw [hl]; simp, hc⟩
  obtain ⟨users, hcard, husers, hcircuit⟩ := exists_users flows c.1
  have hlt := overflowAt_eq_some hoverflow
  have hle := hrouting.card_le hmesh hflows husers hcircuit
  rw [length_entered hc, hcard] at hle
  omega

def twoTiles : RouteTarget where
  columns := 1
  rows := 2
  isShimNOCorPLTile := fun _ => false
  numSourceSwitchboxConnections := fun _ bundle =>
    if bundle = .DMA then 2 else if bundle = .North ∨ bundle = .South then 1 else 0
  numSourceShimMuxConnections := fun _ _ => 0
  numDestSwitchboxConnections := fun t bundle =>
    if bundle = .DMA then 2 else if bundle = .North ∧ t.row = 0 ∨ bundle = .South then 1 else 0
  numDestShimMuxConnections := fun _ _ => 0
  isLegalTileConnection := fun _ _ _ => true
  east_edge := fun _ _ _ => ⟨rfl, rfl⟩
  north_edge := fun t ht _ => ⟨by simp; omega, rfl⟩

def twoCircuits : List Flow :=
  [⟨-1, false, ⟨⟨0, 0⟩, ⟨.DMA, 0⟩⟩, [⟨⟨0, 1⟩, ⟨.DMA, 0⟩⟩], none⟩,
    ⟨-1, false, ⟨⟨0, 0⟩, ⟨.DMA, 1⟩⟩, [⟨⟨0, 1⟩, ⟨.DMA, 1⟩⟩], none⟩]

theorem twoCircuits_overflow :
    ¬ ∃ trees, Routing twoTiles.initializeGraph twoCircuits trees := by
  refine @cutOverflow_sound twoTiles [] [] twoTiles.initializeGraph twoCircuits _ rfl ?_ rfl
  decide

end MlirAie.Route
