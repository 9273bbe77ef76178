import MlirAie.Route.Parts

/-!
# The graph of a device's switchboxes

A node of the graph is a tile's crossbar, an edge the channels from one tile to the next. The graph
is laid out from the target model; switchboxes the design already has take their cells away.

* `RouteTarget`: the ports of each tile, none of them over the device's edges;
* `SwitchboxConnect`, `RoutingGraph`, **`initializeGraph`**: crossbars, channels and the graph;
* `excludeTile`, **`addFixedConnection`**, `runAnalysis`: what the router may not use.
-/

namespace MlirAie.Route

structure RouteTarget where
  columns : ℕ
  rows : ℕ
  isShimNOCorPLTile : TileID → Bool
  numSourceSwitchboxConnections : TileID → WireBundle → ℕ
  numSourceShimMuxConnections : TileID → WireBundle → ℕ
  numDestSwitchboxConnections : TileID → WireBundle → ℕ
  numDestShimMuxConnections : TileID → WireBundle → ℕ
  isLegalTileConnection : TileID → Port → Port → Bool
  /-- The last column has no channels to the east. -/
  east_edge : ∀ t, t.col + 1 = columns → t.row < rows →
    numDestSwitchboxConnections t .East = 0 ∧ numDestShimMuxConnections t .East = 0
  /-- The last row has no channels to the north. -/
  north_edge : ∀ t, t.row + 1 = rows → t.col < columns →
    numDestSwitchboxConnections t .North = 0 ∧ numDestShimMuxConnections t .North = 0

namespace RouteTarget

variable (T : RouteTarget) (t : TileID) (bundle : WireBundle)

/-- The source ports of a bundle; those of a shim's mux where the switchbox has none. -/
def sourceChannels : ℕ :=
  if T.numSourceSwitchboxConnections t bundle = 0 ∧ T.isShimNOCorPLTile t then
    T.numSourceShimMuxConnections t bundle
  else T.numSourceSwitchboxConnections t bundle

/-- The destination ports of a bundle; those of a shim's mux where the switchbox has none. -/
def destChannels : ℕ :=
  if T.numDestSwitchboxConnections t bundle = 0 ∧ T.isShimNOCorPLTile t then
    T.numDestShimMuxConnections t bundle
  else T.numDestSwitchboxConnections t bundle

end RouteTarget

def wireBundles : List WireBundle :=
  [.Core, .DMA, .FIFO, .South, .West, .North, .East, WireBundle.PLIO, .NOC, .Trace, .TileControl,
    .Controller32]

/-- A crossbar, or the channels between two tiles: its ports, and which of the connections from a
source port to a destination port are available. -/
structure SwitchboxConnect where
  srcPorts : List Port
  dstPorts : List Port
  available : Port → Port → Bool

/-- The crossbars and the channels, by the tiles they go from and to. -/
structure RoutingGraph where
  columns : ℕ
  rows : ℕ
  switchboxes : List ((TileID × TileID) × SwitchboxConnect)

def portsOf (bundles : List WireBundle) (channels : WireBundle → ℕ) : List Port :=
  bundles.flatMap fun bundle => (List.range (channels bundle)).map (⟨bundle, ·⟩)

/-- The ports a shim's mux reaches from any port. -/
def isMuxed (p : Port) : Bool := p.bundle = .DMA || p.bundle = .NOC || p.bundle = WireBundle.PLIO

namespace RouteTarget

variable (T : RouteTarget)

/-- The crossbar of a tile. -/
def intraconnect (t : TileID) : SwitchboxConnect where
  srcPorts := portsOf wireBundles (T.sourceChannels t)
  dstPorts := portsOf wireBundles (T.destChannels t)
  available pIn pOut := T.isLegalTileConnection t pIn pOut ||
    T.isShimNOCorPLTile t && (isMuxed pIn || isMuxed pOut)

/-- The channels from a tile to the next. -/
def interconnect (src : TileID) (srcBundle dstBundle : WireBundle) : SwitchboxConnect where
  srcPorts := (List.range (T.destChannels src srcBundle)).map (⟨srcBundle, ·⟩)
  dstPorts := (List.range (T.destChannels src srcBundle)).map (⟨dstBundle, ·⟩)
  available pIn pOut := pIn.channel = pOut.channel

/-- The crossbar of a tile and its channels to the others. -/
def tileEntries (t : TileID) : List ((TileID × TileID) × SwitchboxConnect) :=
  [((t, t), T.intraconnect t)] ++
    (if 0 < t.row then [((t, ⟨t.col, t.row - 1⟩), T.interconnect t .South .North)] else []) ++
    (if t.row < T.rows then [((t, ⟨t.col, t.row + 1⟩), T.interconnect t .North .South)] else []) ++
    (if 0 < t.col then [((t, ⟨t.col - 1, t.row⟩), T.interconnect t .West .East)] else []) ++
    if t.col < T.columns then [((t, ⟨t.col + 1, t.row⟩), T.interconnect t .East .West)] else []

/-- **The graph of a device.** It has one row and one column more, which no channel leads to. -/
def initializeGraph : RoutingGraph where
  columns := T.columns
  rows := T.rows
  switchboxes := (List.range (T.rows + 1)).flatMap fun row =>
    (List.range (T.columns + 1)).flatMap fun col => T.tileEntries ⟨col, row⟩

end RouteTarget

namespace RoutingGraph

variable (g : RoutingGraph)

def crossbar (t : TileID) : Option SwitchboxConnect :=
  (g.switchboxes.find? fun e => e.1 = (t, t)).map (·.2)

def restrict (t : TileID) (keep : Port → Port → Bool) : RoutingGraph :=
  { g with switchboxes := g.switchboxes.map fun e =>
      if e.1 = (t, t) then
        (e.1, { e.2 with available := fun p q => e.2.available p q && keep p q })
      else e }

def excludeTile (t : TileID) : RoutingGraph := g.restrict t fun _ _ => false

end RoutingGraph

/-! ## Fixed connections -/

structure FixedSwitchbox where
  tile : TileID
  isShimNOCorPLTile : Bool
  connects : List (Port × Port) := []
  masterSets : List Port := []
  packetRules : List Port := []

def shimMuxChannelTo (dst : Port) : ℕ :=
  if dst.bundle = .DMA then if dst.channel = 0 then 2 else 3
  else if dst.bundle = .NOC then dst.channel + 2
  else dst.channel

namespace FixedSwitchbox

variable (op : FixedSwitchbox)

/-- Whether the switchbox has what is fixed, with at most one driver for each destination port. -/
def legal (sb : SwitchboxConnect) : Bool :=
  (op.connects.all fun c =>
    sb.srcPorts.contains c.1 && sb.dstPorts.contains c.2 && sb.available c.1 c.2) &&
    op.masterSets.all sb.dstPorts.contains &&
    decide (op.connects.map (·.2) ++ op.masterSets).Nodup &&
    op.packetRules.all sb.srcPorts.contains

/-- A destination port that is driven, or that the mux carries on one that is. -/
def claimsDst (q : Port) : Bool :=
  let claimedDsts := op.connects.map (·.2) ++ op.masterSets
  claimedDsts.contains q || op.isShimNOCorPLTile && isMuxed q &&
    claimedDsts.any fun d => d.bundle = .South && d.channel = shimMuxChannelTo q

/-- A source port of a circuit, or that the mux carries on one that is. -/
def claimsSrc (p : Port) : Bool :=
  (op.connects.map (·.1)).contains p || op.isShimNOCorPLTile && isMuxed p &&
    op.connects.any fun c => c.1.bundle = .South && c.1.channel = shimMuxChannelFrom p

end FixedSwitchbox

/-- **A switchbox the design already has** takes its ports from the router. -/
def RoutingGraph.addFixedConnection (g : RoutingGraph) (op : FixedSwitchbox) :
    Option RoutingGraph :=
  let sb := (g.crossbar op.tile).getD ⟨[], [], fun _ _ => false⟩
  if op.legal sb then some (g.restrict op.tile fun p q => !op.claimsSrc p && !op.claimsDst q)
  else none

def RouteTarget.runAnalysis (T : RouteTarget) (excluded : List TileID)
    (fixed : List FixedSwitchbox) : Option RoutingGraph :=
  fixed.foldlM RoutingGraph.addFixedConnection
    (excluded.foldl RoutingGraph.excludeTile T.initializeGraph)

/-! ## The layout -/

variable {T : RouteTarget} {g : RoutingGraph}

/-- Two tiles next to each other. -/
def Adjacent (a b : TileID) : Prop :=
  (a.col = b.col ∧ (a.row + 1 = b.row ∨ b.row + 1 = a.row)) ∨
    (a.row = b.row ∧ (a.col + 1 = b.col ∨ b.col + 1 = a.col))

def RoutingGraph.onDevice (g : RoutingGraph) (t : TileID) : Bool :=
  t.col < g.columns && t.row < g.rows

def RoutingGraph.Meshed (g : RoutingGraph) : Prop :=
  ∀ e ∈ g.switchboxes, e.1.1 ≠ e.1.2 →
    Adjacent e.1.1 e.1.2 ∧ (e.2.srcPorts ≠ [] → g.onDevice e.1.1 = true → g.onDevice e.1.2 = true)

theorem RouteTarget.destChannels_east {t : TileID} (hcol : t.col + 1 = T.columns)
    (hrow : t.row < T.rows) : T.destChannels t .East = 0 := by
  obtain ⟨hsb, hmux⟩ := T.east_edge t hcol hrow
  rw [destChannels]
  split_ifs
  exacts [hmux, hsb]

theorem RouteTarget.destChannels_north {t : TileID} (hrow : t.row + 1 = T.rows)
    (hcol : t.col < T.columns) : T.destChannels t .North = 0 := by
  obtain ⟨hsb, hmux⟩ := T.north_edge t hrow hcol
  rw [destChannels]
  split_ifs
  exacts [hmux, hsb]

theorem RouteTarget.initializeGraph_meshed (T : RouteTarget) : T.initializeGraph.Meshed := by
  intro e he hne
  simp only [initializeGraph, List.mem_flatMap, List.mem_range] at he
  obtain ⟨row, hrow, col, hcol, he⟩ := he
  simp only [tileEntries, List.mem_append, List.mem_singleton] at he
  have hports : ∀ src bundle bundle', (T.interconnect src bundle bundle').srcPorts ≠ [] →
      T.destChannels src bundle ≠ 0 := fun src bundle bundle' h h' => h (by simp [interconnect, h'])
  rcases he with (((rfl | he) | he) | he) | he
  · exact absurd rfl hne
  · split_ifs at he with h
    · obtain rfl := List.mem_singleton.1 he
      refine ⟨.inl ⟨rfl, .inr (Nat.sub_add_cancel h)⟩, fun _ hon => ?_⟩
      simp only [RoutingGraph.onDevice, Bool.and_eq_true, decide_eq_true_eq] at hon ⊢
      exact ⟨hon.1, by omega⟩
    · cases he
  · split_ifs at he with h
    · obtain rfl := List.mem_singleton.1 he
      refine ⟨.inl ⟨rfl, .inl rfl⟩, fun hp hon => ?_⟩
      simp only [RoutingGraph.onDevice, Bool.and_eq_true, decide_eq_true_eq] at hon ⊢
      refine ⟨hon.1, lt_of_le_of_ne hon.2 fun heq => ?_⟩
      exact hports _ _ _ hp (destChannels_north heq hon.1)
    · cases he
  · split_ifs at he with h
    · obtain rfl := List.mem_singleton.1 he
      refine ⟨.inr ⟨rfl, .inr (Nat.sub_add_cancel h)⟩, fun _ hon => ?_⟩
      simp only [RoutingGraph.onDevice, Bool.and_eq_true, decide_eq_true_eq] at hon ⊢
      exact ⟨by omega, hon.2⟩
    · cases he
  · split_ifs at he with h
    · obtain rfl := List.mem_singleton.1 he
      refine ⟨.inr ⟨rfl, .inl rfl⟩, fun hp hon => ?_⟩
      simp only [RoutingGraph.onDevice, Bool.and_eq_true, decide_eq_true_eq] at hon ⊢
      refine ⟨lt_of_le_of_ne hon.1 fun heq => ?_, hon.2⟩
      exact hports _ _ _ hp (destChannels_east heq hon.2)
    · cases he

theorem RoutingGraph.Meshed.restrict (h : g.Meshed) (t : TileID) (keep : Port → Port → Bool) :
    (g.restrict t keep).Meshed := by
  intro e he hne
  obtain ⟨e', he', rfl⟩ := List.mem_map.1 he
  have hkey : (if e'.1 = (t, t) then
      (e'.1, { e'.2 with available := fun p q => e'.2.available p q && keep p q }) else e').1 =
      e'.1 := by split_ifs <;> rfl
  have hports : (if e'.1 = (t, t) then
      (e'.1, { e'.2 with available := fun p q => e'.2.available p q && keep p q })
      else e').2.srcPorts = e'.2.srcPorts := by split_ifs <;> rfl
  rw [hkey] at hne ⊢
  rw [hports]
  exact h e' he' hne

/-- **Channels stay as they are laid out**, whatever the design already has. -/
theorem RouteTarget.runAnalysis_meshed {excluded : List TileID} {fixed : List FixedSwitchbox}
    (h : T.runAnalysis excluded fixed = some g) : g.Meshed := by
  have hexcluded : (excluded.foldl RoutingGraph.excludeTile T.initializeGraph).Meshed := by
    refine List.foldlRecOn (motive := RoutingGraph.Meshed) _ _ T.initializeGraph_meshed ?_
    exact fun g hg t _ => hg.restrict t _
  rw [runAnalysis] at h
  generalize excluded.foldl RoutingGraph.excludeTile T.initializeGraph = g₀ at h hexcluded
  induction fixed generalizing g₀ with
  | nil =>
    obtain rfl := Option.some.inj h
    exact hexcluded
  | cons op fixed ih =>
    rw [List.foldlM_cons] at h
    obtain ⟨g₁, hg₁, h⟩ := Option.bind_eq_some_iff.1 h
    refine ih g₁ h ?_
    rw [RoutingGraph.addFixedConnection] at hg₁
    split_ifs at hg₁
    obtain rfl := Option.some.inj hg₁
    exact hexcluded.restrict _ _

end MlirAie.Route
